import Blockwork.Config.Basic
import Blockwork.Host.Fault
import Blockwork.Machine.Run

/-! # Launching a run

A run has a stack of its own, of the configured size. A host without room for it starts no run. -/

namespace Blockwork

def Config.launch (c : Config) (code : ProgramCode) (s : Session) : Except HostFault (Option Session) :=
  if c.exec.stackSize > hostLimit then .error .exhausted else .ok (code.run s)

end Blockwork
