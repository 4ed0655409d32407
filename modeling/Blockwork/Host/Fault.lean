/-! # Faults of the host

What the host answers when it cannot do what it was asked for, and how it words it. -/

namespace Blockwork

inductive HostFault where
  | missing
  | exhausted
  | denied
  | notDirectory
  | isDirectory
  | nameTooLong
  | zeroByte
  | notText
  | other (message : String)
  deriving DecidableEq, Repr

def HostFault.message : HostFault → String
  | missing => "No such file or directory (os error 2)"
  | exhausted => "Resource temporarily unavailable (os error 11)"
  | denied => "Permission denied (os error 13)"
  | notDirectory => "Not a directory (os error 20)"
  | isDirectory => "Is a directory (os error 21)"
  | nameTooLong => "File name too long (os error 36)"
  | zeroByte => "nul byte found in provided data"
  | notText => "stream did not contain valid UTF-8"
  | other m => m

end Blockwork
