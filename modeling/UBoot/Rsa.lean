import UBoot.Memory

/-!
The exponentiation of `lib/rsa/rsa-verify.c`: Montgomery multiplication word by word, and the public
exponent 65537 by sixteen squarings. Arrays of words have the lowest word first.
-/
namespace UBoot.Rsa
open Memory

def RSA_MAX_KEY_BITS : Nat := 2048
def EINVAL : Int := 22

structure PublicKey where
  len : Nat
  n0inv : BitVec 32
  modulus : List (BitVec 32)
  rr : List (BitVec 32)
  modulus_length : modulus.length = len
  rr_length : rr.length = len

/-- The loop of `subtract_modulus`, with its signed accumulator. -/
def subtractLoop : BitVec 64 → List (BitVec 32) → List (BitVec 32) → List (BitVec 32)
  | acc, n :: num, m :: modulus =>
    let acc := acc + (n.setWidth 64 - m.setWidth 64)
    acc.setWidth 32 :: subtractLoop (acc.sshiftRight 32) num modulus
  | _, _, _ => []

def subtract_modulus (key : PublicKey) (num : List (BitVec 32)) : List (BitVec 32) := subtractLoop 0 num key.modulus

/-- The loop of `greater_equal_modulus` when the lowest `n` words are left to compare. The index is
    unsigned, so it never gets below 0: behind the lowest word it wraps, and the next read is outside of
    both arrays. -/
def compareLoop (num modulus : List (BitVec 32)) : Nat → Option Bool
  | 0 => none
  | i+1 =>
    match num[i]?, modulus[i]? with
    | some a, some b => if a < b then some false else if b < a then some true else compareLoop num modulus i
    | _, _ => none

/-- `none` is a read outside of an array. -/
def greater_equal_modulus (key : PublicKey) (num : List (BitVec 32)) : Option Bool := compareLoop num key.modulus key.len

/-- The loop of `montgomery_mul_add_step` from the second word on: the words from `result[i - 1]` on, and
    the last value of `acc_a`. -/
def mulAddLoop (a d0 : BitVec 32) : BitVec 64 → BitVec 64 → List (BitVec 32) → List (BitVec 32) → List (BitVec 32) →
    List (BitVec 32) × BitVec 64
  | acc_a, acc_b, b :: bs, r :: rs, m :: ms =>
    let acc_a := (acc_a >>> 32) + a.setWidth 64 * b.setWidth 64 + r.setWidth 64
    let acc_b := (acc_b >>> 32) + d0.setWidth 64 * m.setWidth 64 + (acc_a.setWidth 32).setWidth 64
    let rest := mulAddLoop a d0 acc_a acc_b bs rs ms
    (acc_b.setWidth 32 :: rest.1,rest.2)
  | acc_a, acc_b, _, _, _ =>
    let acc_a := (acc_a >>> 32) + (acc_b >>> 32)
    ([acc_a.setWidth 32],acc_a)

/-- A key has at least one word. -/
def montgomery_mul_add_step (key : PublicKey) (result : List (BitVec 32)) (a : BitVec 32) (b : List (BitVec 32)) :
    List (BitVec 32) :=
  match b, result, key.modulus with
  | b0 :: bs, r0 :: rs, m0 :: ms =>
    let acc_a := a.setWidth 64 * b0.setWidth 64 + r0.setWidth 64
    let d0 := acc_a.setWidth 32 * key.n0inv
    let acc_b := d0.setWidth 64 * m0.setWidth 64 + (acc_a.setWidth 32).setWidth 64
    let rest := mulAddLoop a d0 acc_a acc_b bs rs ms
    if rest.2 >>> 32 ≠ 0 then subtract_modulus key rest.1 else rest.1
  | _, _, _ => result

def montgomery_mul (key : PublicKey) (a b : List (BitVec 32)) : List (BitVec 32) :=
  a.foldl (fun result a => montgomery_mul_add_step key result a b) (List.replicate key.len 0)

def get_unaligned_be32 (p : List UInt8) : BitVec 32 := BitVec.ofNat 32 (ofLe (p.take 4).reverse)

def put_unaligned_be32 (val : BitVec 32) : List UInt8 := (toLe 4 val.toNat).reverse

def squareLoop (key : PublicKey) : Nat → List (BitVec 32) → List (BitVec 32)
  | 0, acc => acc
  | i+1, acc =>
    let tmp := montgomery_mul key acc acc
    squareLoop key i (montgomery_mul key tmp tmp)

/-- The result and the array afterwards; `none` is a read outside of an array. -/
def pow_mod (key : PublicKey) (inout : List UInt8) : Option (Int × List UInt8) :=
  if RSA_MAX_KEY_BITS / 32 < key.len then some (-EINVAL,inout)
  else
    let val := (List.range key.len).map fun i => get_unaligned_be32 (inout.drop (4 * (key.len - 1 - i)))
    let acc := squareLoop key 8 (montgomery_mul key val key.rr)
    let result := montgomery_mul key acc val
    match greater_equal_modulus key result with
    | none => none
    | some ge =>
      let result := if ge then subtract_modulus key result else result
      some (0,result.reverse.flatMap put_unaligned_be32)

end UBoot.Rsa
