import HostGlue.Interface.Descriptor

/-!
# The bundled manifest

The opcodes of the machine that call out to the host, with the host functions they call. It is used
when no other manifest is given.
-/

namespace HostGlue.Interface

/-- What is known to be wrong with two of the declared results. -/
def widthNote : Option String := some "declared i256 result does not match the true value width"

def bundledOpcodes : List (String × Descriptor) :=
  [("LOG",
     { name := "log",
       inputs := [.readOffset, .length, .i32, .ipointer, .ipointer, .ipointer, .ipointer] }),
   ("CALLDATALOAD",
     { name := "callDataCopy256",
       inputs := [.pointer],
       outputs := [.i256],
       note := widthNote }),
   ("GAS", { name := "getGasLeft", outputs := [.i64] }),
   ("ADDRESS", { name := "getAddress", outputs := [.address] }),
   ("BALANCE",
     { name := "getBalance",
       isAsync := true,
       inputs := [.address],
       outputs := [.i128] }),
   ("ORIGIN", { name := "getTxOrigin", outputs := [.address] }),
   ("CALLER", { name := "getCaller", outputs := [.address] }),
   ("CALLVALUE", { name := "getCallValue", outputs := [.i128] }),
   ("CALLDATASIZE", { name := "getCallDataSize", outputs := [.i32] }),
   ("CALLDATACOPY", { name := "callDataCopy", inputs := [.writeOffset, .i32, .length] }),
   ("CODESIZE", { name := "getCodeSize", isAsync := true, outputs := [.i32] }),
   ("CODECOPY", { name := "codeCopy", isAsync := true, inputs := [.writeOffset, .i32, .length] }),
   ("EXTCODESIZE",
     { name := "getExternalCodeSize",
       isAsync := true,
       inputs := [.address],
       outputs := [.i32] }),
   ("EXTCODECOPY",
     { name := "externalCodeCopy",
       isAsync := true,
       inputs := [.address, .writeOffset, .i32, .length] }),
   ("GASPRICE", { name := "getTxGasPrice", inputs := [.opointer] }),
   ("BLOCKHASH",
     { name := "getBlockHash",
       isAsync := true,
       inputs := [.i32],
       outputs := [.i256] }),
   ("COINBASE", { name := "getBlockCoinbase", outputs := [.address] }),
   ("TIMESTAMP", { name := "getBlockTimestamp", outputs := [.i64] }),
   ("NUMBER", { name := "getBlockNumber", outputs := [.i64] }),
   ("DIFFICULTY", { name := "getBlockDifficulty", inputs := [.opointer] }),
   ("GASLIMIT", { name := "getBlockGasLimit", outputs := [.i64] }),
   ("CREATE",
     { name := "create",
       isAsync := true,
       inputs := [.i128, .readOffset, .length],
       outputs := [.address] }),
   ("CALL",
     { name := "call",
       isAsync := true,
       inputs := [.i64, .address, .i128, .readOffset, .length],
       outputs := [.i32] }),
   ("CALLCODE",
     { name := "callCode",
       isAsync := true,
       inputs := [.i64, .address, .i128, .readOffset, .length],
       outputs := [.i32] }),
   ("DELEGATECALL",
     { name := "callDelegate",
       isAsync := true,
       inputs := [.i32, .address, .i128, .readOffset, .length, .writeOffset, .length],
       outputs := [.i32] }),
   ("SSTORE", { name := "storageStore", isAsync := true, inputs := [.ipointer, .ipointer] }),
   ("SLOAD",
     { name := "storageLoad",
       isAsync := true,
       inputs := [.ipointer],
       outputs := [.i256],
       note := widthNote }),
   ("SELFDESTRUCT", { name := "selfDestruct", inputs := [.address] }),
   ("RETURN", { name := "return", inputs := [.readOffset, .length] })]

/-- The bundled manifest. -/
def bundled : Manifest := { hostModule := "ethereum", opcodes := bundledOpcodes }

end HostGlue.Interface
