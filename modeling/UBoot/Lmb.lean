import Mathlib.Tactic

/-!
Logical memory blocks, `lib/lmb.c`: the list of reserved regions. `phys_addr_t` and
`phys_size_t` have 32 bits and sums wrap around. The array `region` keeps old values
behind `cnt`; its contents before `lmb_init` are open.
-/
namespace UBoot.Lmb

def MAX_LMB_REGIONS : Nat := 8

/-- `struct lmb_property`. -/
structure Property where
  base : UInt32
  size : UInt32
deriving DecidableEq

/-- `struct lmb_region`. -/
structure LmbRegion where
  cnt : Nat
  region : Nat → Property

/-- `struct lmb`. -/
structure Lmb where
  memory : LmbRegion
  reserved : LmbRegion

/-- 1 if the second block starts where the first ends, -1 if it ends where the first
    starts. -/
def lmb_addrs_adjacent (base1 size1 base2 size2 : UInt32) : Int :=
  if base2 = base1 + size1 then 1 else if base1 = base2 + size2 then -1 else 0

def lmb_regions_adjacent (rgn : LmbRegion) (r1 r2 : Nat) : Int :=
  lmb_addrs_adjacent (rgn.region r1).base (rgn.region r1).size (rgn.region r2).base (rgn.region r2).size

/-- The loop of `lmb_remove_region`, `n` steps from `i`. -/
def shiftDown : Nat → Nat → (Nat → Property) → Nat → Property
  | 0, _, region => region
  | n+1, i, region => shiftDown n (i + 1) (Function.update region i (region (i + 1)))

/-- With `cnt` 0 the bound `cnt - 1` of the loop wraps around and it runs out of the
    array: `none`. -/
def lmb_remove_region (rgn : LmbRegion) (r : Nat) : Option LmbRegion :=
  if rgn.cnt = 0 then none else some ⟨rgn.cnt - 1,shiftDown (rgn.cnt - 1 - r) r rgn.region⟩

def lmb_coalesce_regions (rgn : LmbRegion) (r1 r2 : Nat) : Option LmbRegion :=
  let grown : Property := ⟨(rgn.region r1).base,(rgn.region r1).size + (rgn.region r2).size⟩
  lmb_remove_region { rgn with region := Function.update rgn.region r1 grown } r2

/-- `lmb_init`, an empty region at the head of both lists. -/
def lmb_init (lmb : Lmb) : Lmb :=
  ⟨⟨1,Function.update lmb.memory.region 0 ⟨0,0⟩⟩,⟨1,Function.update lmb.reserved.region 0 ⟨0,0⟩⟩⟩

/-- How the attempt to coalesce ends: the region is there already, or `i` at the end
    of the loop, the regions and `coalesced`. -/
inductive Attempt
  | present
  | ended (i : Nat) (region : Nat → Property) (coalesced : Nat)

/-- The first loop of `lmb_add_region`, with `n` regions to go. -/
def coalesceLoop (base size : UInt32) (region : Nat → Property) : Nat → Nat → Attempt
  | 0, i => .ended i region 0
  | n+1, i =>
    let rgn := region i
    if rgn.base = base ∧ rgn.size = size then .present
    else
      let adjacent := lmb_addrs_adjacent base size rgn.base rgn.size
      if adjacent > 0 then .ended i (Function.update region i ⟨rgn.base - size,rgn.size + size⟩) 1
      else if adjacent < 0 then .ended i (Function.update region i ⟨rgn.base,rgn.size + size⟩) 1
      else coalesceLoop base size region n (i + 1)

/-- The second loop, from `i - 1` down to 0. -/
def insertLoop (base size : UInt32) : Nat → (Nat → Property) → Nat → Property
  | 0, region => region
  | i+1, region =>
    if base < (region i).base then insertLoop base size i (Function.update region (i + 1) (region i))
    else Function.update region (i + 1) ⟨base,size⟩

/-- The value returned and the new list; `none` if an access leaves the array. The
    test `i < cnt - 1` holds for every `i` when `cnt` is 0. -/
def lmb_add_region (rgn : LmbRegion) (base size : UInt32) : Option (Int × LmbRegion) :=
  if rgn.cnt = 1 ∧ (rgn.region 0).size = 0 then some (0,{ rgn with region := Function.update rgn.region 0 ⟨base,size⟩ })
  else
    match coalesceLoop base size rgn.region rgn.cnt 0 with
    | .present => some (0,rgn)
    | .ended i region coalesced =>
      let rgn := { rgn with region := region }
      if (i + 1 < rgn.cnt ∨ rgn.cnt = 0) ∧ lmb_regions_adjacent rgn i (i + 1) ≠ 0 then
        (lmb_coalesce_regions rgn i (i + 1)).map fun rgn => ((coalesced : Int) + 1,rgn)
      else if coalesced ≠ 0 then some ((coalesced : Int),rgn)
      else if rgn.cnt ≥ MAX_LMB_REGIONS then some (-1,rgn)
      else
        let region := insertLoop base size rgn.cnt rgn.region
        let region := if base < (region 0).base then Function.update region 0 ⟨base,size⟩ else region
        some (0,⟨rgn.cnt + 1,region⟩)

def lmb_add (lmb : Lmb) (base size : UInt32) : Option (Int × Lmb) :=
  (lmb_add_region lmb.memory base size).map fun r => (r.1,{ lmb with memory := r.2 })

def lmb_reserve (lmb : Lmb) (base size : UInt32) : Option (Int × Lmb) :=
  (lmb_add_region lmb.reserved base size).map fun r => (r.1,{ lmb with reserved := r.2 })

/-- The loop of `lmb_free`: the first region around the block. -/
def findAround (base last : UInt32) (region : Nat → Property) : Nat → Nat → Option Nat
  | 0, _ => none
  | n+1, i =>
    let rgnbegin := (region i).base
    let rgnend := rgnbegin + (region i).size
    if rgnbegin ≤ base ∧ last ≤ rgnend then some i else findAround base last region n (i + 1)

/-- `lmb_free` on the list. -/
def freeRegion (rgn : LmbRegion) (base size : UInt32) : Option (Int × LmbRegion) :=
  let last := base + size
  match findAround base last rgn.region rgn.cnt 0 with
  | none => some (-1,rgn)
  | some i =>
    let rgnbegin := (rgn.region i).base
    let rgnend := rgnbegin + (rgn.region i).size
    if rgnbegin = base ∧ rgnend = last then (lmb_remove_region rgn i).map fun rgn => (0,rgn)
    else if rgnbegin = base then
      some (0,{ rgn with region := Function.update rgn.region i ⟨last,(rgn.region i).size - size⟩ })
    else if rgnend = last then
      some (0,{ rgn with region := Function.update rgn.region i ⟨rgnbegin,(rgn.region i).size - size⟩ })
    else
      lmb_add_region { rgn with region := Function.update rgn.region i ⟨rgnbegin,base - rgnbegin⟩ } last (rgnend - last)

def lmb_free (lmb : Lmb) (base size : UInt32) : Option (Int × Lmb) :=
  (freeRegion lmb.reserved base size).map fun r => (r.1,{ lmb with reserved := r.2 })

/-- The loop of `lmb_is_reserved`. -/
def reservedLoop (addr : UInt32) (region : Nat → Property) : Nat → Nat → Bool
  | 0, _ => false
  | n+1, i =>
    let upper := (region i).base + (region i).size - 1
    if addr ≥ (region i).base ∧ addr ≤ upper then true else reservedLoop addr region n (i + 1)

def lmb_is_reserved (lmb : Lmb) (addr : UInt32) : Bool := reservedLoop addr lmb.reserved.region lmb.reserved.cnt 0

end UBoot.Lmb
