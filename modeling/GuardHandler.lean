import GuardHandler.CallStack.Gap
import GuardHandler.CallStack.Scanned
import GuardHandler.CallStack.NextPatchpoint
import GuardHandler.CallStack.Redirected
import GuardHandler.Prepended
import GuardHandler.FunctionOrder
import GuardHandler.Contexts
import GuardHandler.Passes.CallSites
import GuardHandler.Emitted
import GuardHandler.Elf
