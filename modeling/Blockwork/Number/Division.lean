/-! # Integer division

Division on 64-bit integers rounds towards zero. The machine's own division has no result for a zero
divisor and for the least integer over minus one; the guarded forms never reach those cases. -/

namespace Blockwork.Number

def machineDivides (a n : Int64) : Bool :=
  n != 0 && !(a == Int64.minValue && n == -1)

def machineDiv? (a n : Int64) : Option Int64 :=
  if machineDivides a n then some (a / n) else none

def machineRem? (a n : Int64) : Option Int64 :=
  if machineDivides a n then some (a % n) else none

def safeDivisor (n : Int64) : Int64 :=
  if n = -1 then 1 else n

/-- Quotient with a zero divisor giving zero, wrapped at 64 bits. -/
def quotient (a n : Int64) : Int64 :=
  if n = 0 then 0
  else
    let plain := (machineDiv? a (safeDivisor n)).getD 0
    if n = -1 then -a else plain

def remainder (a n : Int64) : Int64 :=
  if n = 0 then 0
  else
    let plain := (machineRem? a (safeDivisor n)).getD 0
    if n = -1 then 0 else plain

end Blockwork.Number
