import ReversePolish.Binary.Basic

/-! The elementary functions on single-precision values. Each is the machine's
function on the bit pattern of its argument; nothing about its values is assumed. -/

namespace ReversePolish.Binary32

/-- A machine function as a function on values. -/
def viaMachine (fn : Float32 → Float32) (x : Binary32) : Binary32 :=
  .ofBits (fn (.ofBits (.ofNat x.toBits))).toBits.toNat

def ln : Binary32 → Binary32 := viaMachine Float32.log

def log2 : Binary32 → Binary32 := viaMachine Float32.log2

def log10 : Binary32 → Binary32 := viaMachine Float32.log10

def sin : Binary32 → Binary32 := viaMachine Float32.sin

def cos : Binary32 → Binary32 := viaMachine Float32.cos

def tan : Binary32 → Binary32 := viaMachine Float32.tan

/-- The single-precision value nearest to π. -/
def pi : Binary32 := .ofBits 0x40490fdb

/-- The single-precision value nearest to Euler's number. -/
def e : Binary32 := .ofBits 0x402df854

end ReversePolish.Binary32
