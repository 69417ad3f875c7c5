/-! The permutation of 25 lanes that the digest is built on. Lane `x + 5 * y` stands in
column `x` of plane `y`. -/
namespace FloatMachine

abbrev Lanes := Vector UInt64 25

namespace Lanes

def start : Lanes := Vector.replicate 25 0

def lane (a : Lanes) (x y : Nat) : UInt64 :=
  a.get ⟨(x % 5 + 5 * (y % 5)) % 25, Nat.mod_lt _ (by decide)⟩

def rotate (w : UInt64) (n : UInt64) : UInt64 := w <<< n ||| w >>> (64 - n)

def offsets : Vector UInt64 25 :=
  #v[ 0,  1, 62, 28, 27,
     36, 44,  6, 55, 20,
      3, 10, 43, 25, 39,
     41, 45, 15, 21,  8,
     18,  2, 61, 56, 14]

def constants : List UInt64 :=
  [0x0000000000000001, 0x0000000000008082, 0x800000000000808a, 0x8000000080008000,
   0x000000000000808b, 0x0000000080000001, 0x8000000080008081, 0x8000000000008009,
   0x000000000000008a, 0x0000000000000088, 0x0000000080008009, 0x000000008000000a,
   0x000000008000808b, 0x800000000000008b, 0x8000000000008089, 0x8000000000008003,
   0x8000000000008002, 0x8000000000000080, 0x000000000000800a, 0x800000008000000a,
   0x8000000080008081, 0x8000000000008080, 0x0000000080000001, 0x8000000080008008]

/-- Every bit takes the parities of two neighbouring columns. -/
def theta (a : Lanes) : Lanes :=
  let parity : Vector UInt64 5 := Vector.ofFn fun x =>
    lane a x 0 ^^^ lane a x 1 ^^^ lane a x 2 ^^^ lane a x 3 ^^^ lane a x 4
  let column (x : Nat) : UInt64 := parity.get ⟨x % 5, Nat.mod_lt _ (by decide)⟩
  Vector.ofFn fun i => a.get i ^^^ column (i.val + 4) ^^^ rotate (column (i.val + 1)) 1

/-- Lanes are rotated, each by its own offset, and moved. -/
def rhoPi (a : Lanes) : Lanes :=
  let rotated : Lanes := Vector.ofFn fun i => rotate (a.get i) (offsets.get i)
  Vector.ofFn fun i => lane rotated (i.val % 5 + 3 * (i.val / 5)) (i.val % 5)

def chi (a : Lanes) : Lanes :=
  Vector.ofFn fun i =>
    a.get i ^^^ (~~~ (lane a (i.val + 1) (i.val / 5)) &&& lane a (i.val + 2) (i.val / 5))

def iota (a : Lanes) (constant : UInt64) : Lanes := a.set 0 (a.get 0 ^^^ constant)

def permute (a : Lanes) : Lanes := constants.foldl (fun a c => iota (chi (rhoPi (theta a))) c) a

end Lanes
end FloatMachine
