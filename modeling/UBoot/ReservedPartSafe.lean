import UBoot.ReservedPart

/-!
A call changes no byte of a read-only reserved partition if the range it asks for does not wrap and,
where whole pages or sectors are changed, the reserved partitions consist of whole ones
(`reserved_partitions_kept`).
-/
namespace UBoot.ReservedPartSafe
open List Nat BitVec Runs ReservedPart

variable {to_ : BitVec 32} {n k : Nat}

variable {f : Flash} {env : Environment} {table : List Partition} {parts : List ReservedPartition}
  {part : Partition} {addr len : BitVec 32} {x : Nat} {c : Command}

/-! ### The list of reserved partitions -/

def Holds (f : Flash) (part : Partition) (x : Nat) : Prop := part.offset.toNat ≤ x ∧ x < f.endOf part

/-- Every reserved partition is in the list, and all are in the same mode. -/
structure Records (f : Flash) (table : List Partition) (parts : List ReservedPartition) : Prop where
  listed : ∀ part ∈ table, part.reserved = true →
    ∃ r ∈ parts, r.start = part.offset ∧ r.end_ = BitVec.ofNat 32 (f.endOf part)
  uniform : ∀ r ∈ parts, ∀ s ∈ parts, r.rw_mode = s.rw_mode

theorem scanLoop_mode {cnt : Nat} {r : ReservedPartition} (member : r ∈ scanLoop f cnt table) :
    r.rw_mode = .RESERVED_PART_R_ONLY := by
  induction table generalizing cnt with
  | nil => simp [scanLoop] at member
  | cons part table ih =>
    rw [scanLoop] at member
    split_ifs at member
    · rcases mem_cons.mp member with rfl | member
      · rfl
      · exact ih member
    · exact ih member

theorem scanLoop_listed {cnt : Nat} (member : part ∈ table) (reserved : part.reserved = true) :
    ∃ r ∈ scanLoop f cnt table, r.start = part.offset ∧ r.end_ = BitVec.ofNat 32 (f.endOf part) := by
  induction table generalizing cnt with
  | nil => simp at member
  | cons other table ih =>
    rw [scanLoop]
    rcases mem_cons.mp member with rfl | member
    · rw [if_pos reserved]
      exact ⟨_,mem_cons_self,rfl,rfl⟩
    split_ifs
    · obtain ⟨r,listed,bounds⟩ := @ih ((cnt+1) % 256) member
      exact ⟨r,mem_cons_of_mem _ listed,bounds⟩
    · exact ih member

theorem scan_records (scanned : scan_reserved_part f table = some parts) : Records f table parts := by
  rw [scan_reserved_part] at scanned
  split_ifs at scanned
  cases scanned
  exact ⟨fun part member reserved => scanLoop_listed member reserved,
    fun r one s two => (scanLoop_mode one).trans (scanLoop_mode two).symm⟩

theorem Records.modify (records : Records f table parts) (rw_mode : RwMode) :
    Records f table (modify_reserved_part_rw_mode parts rw_mode) := by
  constructor
  · intro part member reserved
    obtain ⟨r,listed,bounds⟩ := records.listed part member reserved
    exact ⟨{ r with rw_mode := rw_mode },mem_map.mpr ⟨r,listed,rfl⟩,bounds⟩
  intro r one s two
  obtain ⟨_,-,rfl⟩ := mem_map.mp one
  obtain ⟨_,-,rfl⟩ := mem_map.mp two
  rfl

theorem Records.call {t : FlashType} (records : Records f table parts) (call : Call t) :
    Records f table (call.parts parts) := by
  cases call with
  | modify_reserved_part_rw_mode rw_mode => exact records.modify rw_mode
  | _ => exact records

/-! ### The check -/

section
variable {r : ReservedPartition} (start : r.start = part.offset) (stop : r.end_ = BitVec.ofNat 32 (f.endOf part))
  (small : f.endOf part < 2 ^ 32)
include start stop small

theorem meets_first (held : Holds f part addr.toNat) : r.meets addr len = true := by
  have end_ : r.end_.toNat = f.endOf part := by rw [stop,toNat_ofNat,mod_eq_of_lt small]
  have inside : r.start ≤ addr ∧ addr < r.end_ := by
    rw [lt_def,end_,start]
    exact held
  simp [ReservedPartition.meets,inside]

theorem meets_range (fits : addr.toNat + len.toNat < 2 ^ 32) (held : Holds f part x) (low : addr.toNat ≤ x)
    (high : x < addr.toNat + len.toNat) : r.meets addr len = true := by
  have end_ : r.end_.toNat = f.endOf part := by rw [stop,toNat_ofNat,mod_eq_of_lt small]
  have sum : (addr+len).toNat = addr.toNat + len.toNat := by rw [toNat_add,mod_eq_of_lt fits]
  obtain ⟨above,below⟩ := held
  simp only [ReservedPartition.meets,Bool.or_eq_true,Bool.and_eq_true,decide_eq_true_eq,le_def,lt_def,
    end_,sum,start]
  omega
end

/-- The reserved partitions of the table are read-only, and the address space holds them. -/
structure Locked (f : Flash) (table : List Partition) (parts : List ReservedPartition) : Prop where
  records : Records f table parts
  small : ∀ part ∈ table, part.reserved = true → f.endOf part < 2 ^ 32
  readOnly : ∃ r ∈ parts, r.rw_mode = .RESERVED_PART_R_ONLY

theorem Locked.refuses (locked : Locked f table parts) {r : ReservedPartition} (listed : r ∈ parts)
    (meets : r.meets addr len = true) : check_partition_is_writable parts addr len = true := by
  rw [check_partition_is_writable]
  cases found : offset_2_reserved_part parts addr len with
  | none => exact absurd meets (find?_eq_none.mp found r listed)
  | some s =>
    obtain ⟨lock,member,mode⟩ := locked.readOnly
    have same := locked.records.uniform s (mem_of_find?_eq_some found) lock member
    simp [same,mode]

section
variable (locked : Locked f table parts) (member : part ∈ table) (reserved : part.reserved = true)
include locked member reserved

theorem refused_first (held : Holds f part addr.toNat) : check_partition_is_writable parts addr len = true := by
  obtain ⟨r,listed,start,stop⟩ := locked.records.listed part member reserved
  exact locked.refuses listed (meets_first start stop (locked.small part member reserved) held)

theorem refused_range (fits : addr.toNat + len.toNat < 2 ^ 32) (held : Holds f part x) (low : addr.toNat ≤ x)
    (high : x < addr.toNat + len.toNat) : check_partition_is_writable parts addr len = true := by
  obtain ⟨r,listed,start,stop⟩ := locked.records.listed part member reserved
  exact locked.refuses listed (meets_range start stop (locked.small part member reserved) fits held low high)
end

/-! ### Pages -/

theorem writesize_lt (f : Flash) : f.writesize < 2 ^ 32 :=
  lt_of_le_of_lt (le_of_dvd f.erasesize_pos f.wholePages) f.erasesize_lt

theorem writesize_toNat (f : Flash) : (BitVec.ofNat 32 f.writesize).toNat = f.writesize := by
  rw [toNat_ofNat,mod_eq_of_lt (writesize_lt f)]

theorem erasesize_toNat (f : Flash) : (BitVec.ofNat 32 f.erasesize).toNat = f.erasesize := by
  rw [toNat_ofNat,mod_eq_of_lt f.erasesize_lt]

def Within (f : Flash) (c : Command) (low high : Nat) : Prop := ∀ x, c.changes f x → low ≤ x ∧ x < high

theorem norWrite_within (page : addr.toNat % f.writesize + len.toNat ≤ f.writesize) :
    Within f (.norWrite addr len) addr.toNat (addr.toNat+len.toNat) := fun _ changed => changed.2 page

theorem Within.mono {low high low' high' : Nat} (within : Within f c low high) (down : low' ≤ low) (up : high ≤ high') :
    Within f c low' high' := fun x changed => by
  have := within x changed
  omega

theorem pageLoop_within {i : BitVec 32} {fuel : Nat} (power : f.writesize ∣ 2 ^ 32)
    (fits : to_.toNat + len.toNat < 2 ^ 32) (aligned : (to_.toNat+i.toNat) % f.writesize = 0)
    (sent : c ∈ pageLoop f to_ len fuel i) : Within f c to_.toNat (to_.toNat+len.toNat) := by
  induction fuel generalizing i with
  | zero => simp [pageLoop] at sent
  | succ fuel ih =>
    rw [pageLoop] at sent
    by_cases more : i < len
    · rw [if_pos more] at sent
      simp only at sent
      have less : i.toNat < len.toNat := more
      have place : (to_+i).toNat = to_.toNat + i.toNat := by
        rw [BitVec.toNat_add]
        omega
      have left : (len-i).toNat = len.toNat - i.toNat := BitVec.toNat_sub_of_le (BitVec.le_of_lt more)
      generalize count : (if BitVec.ofNat 32 f.writesize ≤ len - i then BitVec.ofNat 32 f.writesize else len - i) = n at sent
      have most : n.toNat ≤ f.writesize ∧ n.toNat ≤ len.toNat - i.toNat := by
        rw [← count]
        split_ifs with whole
        all_goals
          rw [le_def,writesize_toNat,left] at whole
          simp only [writesize_toNat,left]
          omega
      rcases mem_cons.mp sent with rfl | later
      · refine (norWrite_within ?_).mono ?_ ?_
        · rw [place,aligned]
          omega
        · omega
        · omega
      refine ih ?_ later
      rw [toNat_add,writesize_toNat,add_mod,mod_mod_of_dvd _ power,← add_mod,← add_assoc,
        add_mod_right,aligned]
    · simp [more] at sent

theorem sfc_nor_page_write_within (power : f.writesize = 2 ^ k)
    (fits : to_.toNat + len.toNat < 2 ^ 32) (sent : c ∈ sfc_nor_page_write f env to_ len) :
    Within f c to_.toNat (to_.toNat+len.toNat) := by
  have small := writesize_lt f
  have positive := f.writesize_pos
  have exponent : k < 32 := by
    rw [power] at small
    exact (Nat.pow_lt_pow_iff_right (by decide)).mp small
  have offset : (to_ &&& (BitVec.ofNat 32 f.writesize - 1)).toNat = to_.toNat % f.writesize := by
    rw [toNat_and,toNat_sub_of_le (by rw [le_def,writesize_toNat]; exact positive),writesize_toNat,
      power]
    exact Nat.and_two_pow_sub_one_eq_mod _ _
  have remainder := Nat.mod_lt to_.toNat positive
  have part_le := mod_le to_.toNat f.writesize
  have sum : ((to_ &&& (BitVec.ofNat 32 f.writesize - 1)) + len).toNat = to_.toNat % f.writesize + len.toNat := by
    rw [toNat_add]
    omega
  rw [sfc_nor_page_write] at sent
  split_ifs at sent with readOnly
  · simp at sent
  simp only at sent
  split_ifs at sent with one
  · rw [le_def,sum,writesize_toNat] at one
    obtain rfl := mem_singleton.mp sent
    exact norWrite_within one
  rw [le_def,writesize_toNat] at one
  have first : (BitVec.ofNat 32 f.writesize - (to_ &&& (BitVec.ofNat 32 f.writesize - 1))).toNat =
      f.writesize - to_.toNat % f.writesize := by
    rw [toNat_sub_of_le (by rw [le_def,writesize_toNat]; omega),writesize_toNat,offset]
  rcases mem_cons.mp sent with rfl | later
  · exact (norWrite_within (by omega)).mono (le_refl _) (by omega)
  refine pageLoop_within ?_ fits ?_ later
  · rw [power]
    exact pow_dvd_pow 2 (by omega)
  rw [first]
  have split := Nat.div_add_mod to_.toNat f.writesize
  have whole : to_.toNat + (f.writesize - to_.toNat % f.writesize) =
      f.writesize * (to_.toNat / f.writesize + 1) := by
    rw [Nat.mul_add]
    omega
  rw [whole,Nat.mul_mod_right]

theorem nandWrite_within {n : BitVec 32} (page : to_.toNat % f.writesize + n.toNat ≤ f.writesize) :
    Within f (.nandWrite (to_ / BitVec.ofNat 32 f.writesize) (to_ % BitVec.ofNat 32 f.writesize) n)
      to_.toNat (to_.toNat+n.toNat) := by
  intro x changed
  have range := changed.2
  rw [toNat_umod,toNat_udiv,writesize_toNat,div_add_mod'] at range
  exact range page

theorem writeLoop_within {fuel : Nat} (fits : to_.toNat + len.toNat < 2 ^ 32)
    (sent : c ∈ writeLoop f env fuel n to_ len) : Within f c to_.toNat (to_.toNat+len.toNat) := by
  induction fuel generalizing n to_ len with
  | zero => simp [writeLoop] at sent
  | succ fuel ih =>
    rw [writeLoop] at sent
    by_cases none : len = 0
    · simp [none] at sent
    rw [if_neg none] at sent
    simp only at sent
    have remainder := mod_lt to_.toNat f.writesize_pos
    have left : (BitVec.ofNat 32 f.writesize - to_ % BitVec.ofNat 32 f.writesize).toNat =
        f.writesize - to_.toNat % f.writesize := by
      rw [toNat_sub_of_le (by rw [le_def,toNat_umod,writesize_toNat]; omega),toNat_umod,
        writesize_toNat]
    generalize count : (if BitVec.ofNat 32 f.writesize - to_ % BitVec.ofNat 32 f.writesize < len then
      BitVec.ofNat 32 f.writesize - to_ % BitVec.ofNat 32 f.writesize else len) = wlen at sent
    have most : wlen.toNat ≤ f.writesize - to_.toNat % f.writesize ∧ wlen.toNat ≤ len.toNat := by
      rw [← count]
      split_ifs with short
      all_goals
        rw [lt_def] at short
        omega
    rcases mem_cons.mp sent with rfl | later
    · exact (nandWrite_within (by omega)).mono (le_refl _) (by omega)
    split_ifs at later
    · simp at later
    have next : (to_+wlen).toNat = to_.toNat + wlen.toNat := by
      rw [toNat_add]
      omega
    have rest : (len-wlen).toNat = len.toNat - wlen.toNat :=
      toNat_sub_of_le (le_def.mpr most.2)
    exact (ih (by omega) later).mono (by omega) (by omega)

/-! ### Sectors -/

/-- A loop that does not leave the address space sends its command for addresses a sector apart. -/
theorem eraseLoop_sent {command : BitVec 32 → Command} {end_ : BitVec 32} {fuel n m : Nat} {ret : Int}
    (enough : end_.toNat ≤ addr.toNat + m * f.erasesize) (small : addr.toNat + m * f.erasesize < 2 ^ 32)
    (sent : c ∈ (eraseLoop f env command end_ fuel n addr ret).1) :
    ∃ (k : Nat) (a : BitVec 32), c = command a ∧ a.toNat = addr.toNat + k * f.erasesize ∧ a.toNat < end_.toNat := by
  induction fuel generalizing n m addr ret with
  | zero => simp [eraseLoop] at sent
  | succ fuel ih =>
    rw [eraseLoop] at sent
    by_cases more : addr < end_
    · have less : addr.toNat < end_.toNat := more
      obtain ⟨m,rfl⟩ : ∃ j, m = j + 1 := by
        cases m with
        | zero => omega
        | succ j => exact ⟨j,rfl⟩
      have expand : (m+1) * f.erasesize = m * f.erasesize + f.erasesize := succ_mul ..
      have next : (addr + BitVec.ofNat 32 f.erasesize).toNat = addr.toNat + f.erasesize := by
        rw [toNat_add,erasesize_toNat]
        omega
      have cases_ : c = command addr ∨
          c ∈ (eraseLoop f env command end_ fuel (n+1) (addr + BitVec.ofNat 32 f.erasesize) 0).1 := by
        split_ifs at sent
        · exact .inl (mem_singleton.mp sent)
        · exact mem_cons.mp sent
      rcases cases_ with rfl | later
      · exact ⟨0,addr,rfl,by omega,less⟩
      · obtain ⟨k,a,same,place,before⟩ := @ih (addr + BitVec.ofNat 32 f.erasesize) (n+1) m 0 (by omega) (by omega) later
        exact ⟨k+1,a,same,by rw [Nat.succ_mul]; omega,before⟩
    · simp [more] at sent

/-- A partition of whole units of `n` bytes has all bytes of a unit or none. -/
theorem Holds.unit {y : Nat} (positive : 0 < n) (start : n ∣ part.offset.toNat) (stop : n ∣ f.endOf part)
    (held : Holds f part x) (same : x / n = y / n) : Holds f part y := by
  obtain ⟨s,start⟩ := start
  obtain ⟨e,stop⟩ := stop
  rw [Holds,start,stop] at held ⊢
  have low : s ≤ x / n := (le_div_iff_mul_le positive).mpr (by rw [mul_comm]; exact held.1)
  have high : x / n < e := (div_lt_iff_lt_mul positive).mpr (by rw [mul_comm]; exact held.2)
  rw [same] at low high
  exact ⟨by rw [mul_comm]; exact (le_div_iff_mul_le positive).mp low,
    by rw [mul_comm]; exact (div_lt_iff_lt_mul positive).mp high⟩

/-- The length that `sfc_nor_erase` goes on with is a number of sectors: 0, or as many as are needed. -/
theorem rounded_length (power : f.erasesize = 2 ^ k) (len : BitVec 32) :
    ∃ m, (if len % BitVec.ofNat 32 f.erasesize ≠ 0 then
        len - len % BitVec.ofNat 32 f.erasesize + BitVec.ofNat 32 f.erasesize else len).toNat = m * f.erasesize ∧
      (m = 0 ∨ len.toNat ≤ m * f.erasesize ∧ m * f.erasesize < len.toNat + f.erasesize) := by
  have bound := len.isLt
  have positive := f.erasesize_pos
  have small := f.erasesize_lt
  have split := div_add_mod len.toNat f.erasesize
  have remainder := Nat.mod_lt len.toNat positive
  have exponent : k < 32 := by
    rw [power] at small
    exact (Nat.pow_lt_pow_iff_right (by decide)).mp small
  have rest : (len % BitVec.ofNat 32 f.erasesize).toNat = len.toNat % f.erasesize := by
    rw [toNat_umod,erasesize_toNat]
  by_cases whole : len.toNat % f.erasesize = 0
  · have zero : len % BitVec.ofNat 32 f.erasesize = 0 := eq_of_toNat_eq (by rw [rest,whole]; rfl)
    refine ⟨len.toNat / f.erasesize,?_,.inr ?_⟩
    · rw [if_neg (not_not_intro zero),mul_comm]
      omega
    · rw [mul_comm]
      omega
  have nonzero : len % BitVec.ofNat 32 f.erasesize ≠ 0 := fun zero => whole (by rw [← rest,zero]; rfl)
  -- the next multiple is at most 2 ^ 32, where it wraps to 0
  obtain ⟨u,space⟩ : f.erasesize ∣ 2 ^ 32 := by
    rw [power]
    exact pow_dvd_pow 2 (by omega)
  have quotient : len.toNat / f.erasesize < u := (div_lt_iff_lt_mul positive).mpr (by rw [mul_comm,← space]; exact bound)
  have next : f.erasesize * (len.toNat / f.erasesize + 1) ≤ f.erasesize * u := mul_le_mul_left _ quotient
  have expand : f.erasesize * (len.toNat / f.erasesize + 1) = f.erasesize * (len.toNat / f.erasesize) + f.erasesize :=
    mul_succ ..
  have value : (len - len % BitVec.ofNat 32 f.erasesize + BitVec.ofNat 32 f.erasesize).toNat =
      (f.erasesize * (len.toNat / f.erasesize + 1)) % 2 ^ 32 := by
    rw [toNat_add,toNat_sub_of_le (by exact mod_le ..),erasesize_toNat]
    omega
  rw [if_pos nonzero,value]
  by_cases wraps : f.erasesize * (len.toNat / f.erasesize + 1) = 2 ^ 32
  · exact ⟨0,by rw [wraps,Nat.mod_self,Nat.zero_mul],.inl rfl⟩
  refine ⟨len.toNat / f.erasesize + 1,?_,.inr ?_⟩
  · rw [Nat.mod_eq_of_lt (by omega),Nat.mul_comm]
  · rw [Nat.mul_comm]
    omega

/-- `sfc_nor_erase` erases sectors of bytes that it was asked for, and only if the range does not wrap. -/
theorem sfc_nor_erase_sent (power : f.erasesize = 2 ^ k) (sent : c ∈ sfc_nor_erase f env parts addr len) :
    check_partition_is_writable parts addr len = false ∧ addr.toNat + len.toNat < 2 ^ 32 ∧
      ∃ a : BitVec 32, c = .norErase a ∧ addr.toNat ≤ a.toNat ∧ a.toNat < addr.toNat + len.toNat := by
  rw [sfc_nor_erase] at sent
  by_cases refused : check_partition_is_writable parts addr len = true
  · simp [refused] at sent
  split_ifs at sent with readOnly
  · simp at sent
  obtain ⟨m,length,rounded⟩ := rounded_length power len
  simp only at sent
  generalize (if len % BitVec.ofNat 32 f.erasesize ≠ 0 then
    len - len % BitVec.ofNat 32 f.erasesize + BitVec.ofNat 32 f.erasesize else len) = len' at length sent
  have sum : (addr+len').toNat = (addr.toNat + m * f.erasesize) % 2 ^ 32 := by rw [toNat_add,length]
  by_cases fits : addr.toNat + m * f.erasesize < 2 ^ 32
  · obtain ⟨k,a,same,place,before⟩ := @eraseLoop_sent _ _ _ _ _ _ _ _ m _ (by omega) fits sent
    have fewer : k < m := by
      by_contra many
      have := Nat.mul_le_mul_right f.erasesize (Nat.not_lt.mp many)
      omega
    have step : (k+1) * f.erasesize ≤ m * f.erasesize := Nat.mul_le_mul_right _ fewer
    rw [Nat.succ_mul] at step
    rcases rounded with zero | rounded
    · omega
    · exact ⟨by simpa using refused,by omega,a,same,by omega,by omega⟩
  · obtain ⟨k,a,-,place,before⟩ := @eraseLoop_sent _ _ _ _ _ _ _ _ 0 _ (by omega) (by omega) sent
    omega

theorem nandErase_changes {a : BitVec 32} (changed : (Command.nandErase (a / BitVec.ofNat 32 f.writesize)).changes f x) :
    x / f.erasesize = a.toNat / f.erasesize := by
  obtain ⟨q,whole⟩ := f.wholePages
  rw [changed,toNat_udiv,writesize_toNat,whole,← Nat.div_div_eq_div_mul,Nat.mul_div_cancel _ f.writesize_pos,
    Nat.div_div_eq_div_mul]

/-- `jz_sfcnand_write_oob` changes the page of its address, and only if the check lets it. -/
theorem jz_sfcnand_write_oob_sent {n : Nat} {ops : OobOps} (sent : c ∈ (jz_sfcnand_write_oob f env parts n addr ops).1) :
    check_partition_is_writable parts addr ops.len = false ∧ (c.changes f x → x / f.writesize = addr.toNat / f.writesize) := by
  have page : ∀ column len', (Command.nandWrite (addr / BitVec.ofNat 32 f.writesize) column len').changes f x →
      x / f.writesize = addr.toNat / f.writesize := by
    intro column len' changed
    have same := changed.1
    rwa [toNat_udiv,writesize_toNat] at same
  rw [jz_sfcnand_write_oob] at sent
  by_cases refused : check_partition_is_writable parts addr ops.len = true
  · simp [refused] at sent
  refine ⟨by simpa using refused,?_⟩
  have either : c = .nandWrite (addr / BitVec.ofNat 32 f.writesize) 0 ops.len ∨
      c = .nandWrite (addr / BitVec.ofNat 32 f.writesize) (BitVec.ofNat 32 f.writesize + ops.ooboffs) ops.ooblen := by
    simp only at sent
    split_ifs at sent <;> simp_all
  rcases either with rfl | rfl
  · exact page _ _
  · exact page _ _

theorem jz_sfcnand_block_markbad_sent {ofs : BitVec 32}
    (sent : c ∈ (jz_sfcnand_block_markbad f env parts n ofs).1) :
    ∃ n' a ops, c ∈ (jz_sfcnand_write_oob f env parts n' a ops).1 := by
  rw [jz_sfcnand_block_markbad] at sent
  split_ifs at sent
  all_goals simp only [mem_append,not_mem_nil] at sent
  all_goals
    first
    | exact ⟨_,_,_,sent⟩
    | (rcases sent with sent | sent <;> exact ⟨_,_,_,sent⟩)

/-! ### Calls -/

/-- The reserved partitions consist of whole units of `n` bytes. -/
def Aligned (f : Flash) (table : List Partition) (n : Nat) : Prop :=
  ∀ part ∈ table, part.reserved = true → n ∣ part.offset.toNat ∧ n ∣ f.endOf part

/-- The condition on a call: a range that is written does not wrap, and what is changed as a whole does
    not stand across the bounds of a reserved partition. The loop that erases blocks needs the address
    behind the last one. -/
def Fits {t : FlashType} (f : Flash) (table : List Partition) : Call t → Prop
  | .sfc_nor_write to_ len => to_.toNat + len.toNat < 2 ^ 32
  | .sfc_nor_erase _ _ => Aligned f table f.erasesize
  | .jz_sfcnand_write to_ len => to_.toNat + len.toNat < 2 ^ 32
  | .jz_sfcnand_write_oob _ _ => Aligned f table f.writesize
  | .jz_sfcnand_erase addr len => Aligned f table f.erasesize ∧
      addr.toNat + (len.toNat + f.erasesize - 1) / f.erasesize * f.erasesize < 2 ^ 32
  | .modify_reserved_part_rw_mode _ => True

section
variable (locked : Locked f table parts) (member : part ∈ table) (reserved : part.reserved = true) (held : Holds f part x)
include locked member reserved held

theorem within_keeps (fits : to_.toNat + len.toNat < 2 ^ 32)
    (open_ : check_partition_is_writable parts to_ len = false)
    (within : Within f c to_.toNat (to_.toNat+len.toNat)) : ¬ c.changes f x := by
  intro changed
  obtain ⟨low,high⟩ := within x changed
  rw [refused_range locked member reserved fits held low high] at open_
  cases open_

theorem write_oob_keeps {ops : OobOps} (aligned : Aligned f table f.writesize)
    (sent : c ∈ (jz_sfcnand_write_oob f env parts n addr ops).1) : ¬ c.changes f x := by
  intro changed
  obtain ⟨open_,page⟩ := @jz_sfcnand_write_oob_sent f env parts addr x c n ops sent
  obtain ⟨start,stop⟩ := aligned part member reserved
  have inside := held.unit f.writesize_pos start stop (page changed)
  rw [refused_first locked member reserved inside] at open_
  cases open_

theorem sector_keeps {a : BitVec 32} (aligned : Aligned f table f.erasesize) (fits : addr.toNat + len.toNat < 2 ^ 32)
    (open_ : check_partition_is_writable parts addr len = false) (low : addr.toNat ≤ a.toNat)
    (high : a.toNat < addr.toNat + len.toNat) : x / f.erasesize ≠ a.toNat / f.erasesize := by
  intro same
  obtain ⟨start,stop⟩ := aligned part member reserved
  have inside := held.unit f.erasesize_pos start stop same
  rw [refused_range locked member reserved fits inside low high] at open_
  cases open_

theorem jz_sfcnand_erase_keeps (fits : Fits f table (.jz_sfcnand_erase addr len))
    (sent : c ∈ jz_sfcnand_erase f env parts addr len) : ¬ c.changes f x := by
  obtain ⟨aligned,small⟩ := fits
  have pages : Aligned f table f.writesize := fun other listed flagged =>
    ⟨f.wholePages.trans (aligned other listed flagged).1,f.wholePages.trans (aligned other listed flagged).2⟩
  have positive := f.erasesize_pos
  have enough : len.toNat ≤ (len.toNat + f.erasesize - 1) / f.erasesize * f.erasesize := by
    have split := div_add_mod (len.toNat + f.erasesize - 1) f.erasesize
    have remainder := mod_lt (len.toNat + f.erasesize - 1) positive
    rw [mul_comm] at split
    omega
  rw [jz_sfcnand_erase] at sent
  by_cases refused : check_partition_is_writable parts addr len = true
  · simp [refused] at sent
  rw [if_neg refused] at sent
  have open_ : check_partition_is_writable parts addr len = false := by simpa using refused
  have fits : addr.toNat + len.toNat < 2 ^ 32 := by omega
  have erased : ∀ c ∈ (jz_sfc_nand_erase f env addr len).1, ¬ c.changes f x := by
    intro c sent
    rw [jz_sfc_nand_erase] at sent
    split_ifs at sent
    · simp at sent
    have sum : (addr+len).toNat = addr.toNat + len.toNat := by
      rw [toNat_add]
      omega
    obtain ⟨k,a,rfl,place,before⟩ := eraseLoop_sent (by omega) small sent
    intro changed
    exact sector_keeps locked member reserved held aligned fits open_ (by omega) (by omega) (nandErase_changes changed)
  generalize jz_sfc_nand_erase f env addr len = result at sent erased
  obtain ⟨commands,result⟩ := result
  have either : c ∈ commands ∨ c ∈ (jz_sfcnand_block_markbad f env parts commands.length addr).1 := by
    split at sent
    · rename_i same
      cases same
      exact .inl sent
    · rename_i same
      cases same
      exact .inl sent
    rename_i same
    cases same
    exact mem_append.mp sent
  rcases either with first | second
  · exact erased c first
  · obtain ⟨n,a,ops,marked⟩ := jz_sfcnand_block_markbad_sent second
    exact write_oob_keeps locked member reserved held pages marked

theorem call_keeps {t : FlashType} (kind : f.flash_type = t) {call : Call t} (fits : Fits f table call)
    (sent : c ∈ call.commands f env parts) : ¬ c.changes f x := by
  cases call with
  | sfc_nor_write to_ len =>
    obtain ⟨⟨k,power⟩,-⟩ := f.norSizes kind
    simp only [Call.commands,ReservedPart.sfc_nor_write] at sent
    by_cases refused : check_partition_is_writable parts to_ len = true
    · simp [refused] at sent
    rw [if_neg refused] at sent
    exact within_keeps locked member reserved held fits (by simpa using refused)
      (sfc_nor_page_write_within power fits sent)
  | sfc_nor_erase addr len =>
    obtain ⟨-,⟨k,power⟩⟩ := f.norSizes kind
    obtain ⟨open_,small,a,rfl,low,high⟩ := sfc_nor_erase_sent power sent
    exact sector_keeps locked member reserved held fits small open_ low high
  | jz_sfcnand_write to_ len =>
    simp only [Call.commands,ReservedPart.jz_sfcnand_write] at sent
    by_cases refused : check_partition_is_writable parts to_ len = true
    · simp [refused] at sent
    · rw [if_neg refused] at sent
      exact within_keeps locked member reserved held fits (by simpa using refused) (writeLoop_within fits sent)
  | jz_sfcnand_write_oob addr ops => exact write_oob_keeps locked member reserved held fits sent
  | jz_sfcnand_erase addr len => exact jz_sfcnand_erase_keeps locked member reserved held fits sent
  | modify_reserved_part_rw_mode => simp [Call.commands] at sent
end

def Step (f : Flash) (parts : List ReservedPartition) (call : Call f.flash_type) (parts' : List ReservedPartition) : Prop :=
  parts' = call.parts parts

/-- After any calls, a call that meets the condition changes no byte of a reserved partition that is
    read-only. -/
theorem reserved_partitions_kept {f : Flash} {table : List Partition} {parts parts' : List ReservedPartition}
    {calls : List (Call f.flash_type)} (scanned : scan_reserved_part f table = some parts)
    (small : ∀ part ∈ table, part.reserved = true → f.endOf part < 2 ^ 32) (run : Run (Step f) parts calls parts')
    (call : Call f.flash_type) (fits : Fits f table call) (env : Environment) :
    ∀ c ∈ call.commands f env parts', ∀ part ∈ table, part.reserved = true →
      (∃ r ∈ parts', r.start = part.offset ∧ r.end_ = BitVec.ofNat 32 (f.endOf part) ∧
        r.rw_mode = .RESERVED_PART_R_ONLY) →
      ∀ x, Holds f part x → ¬ c.changes f x := by
  intro c sent part member reserved readOnly x held
  have records : Records f table parts' := run.invariant (scan_records scanned) fun _ call _ records taken =>
    taken ▸ records.call call
  obtain ⟨r,listed,-,-,mode⟩ := readOnly
  exact call_keeps ⟨records,small,r,listed,mode⟩ member reserved held rfl fits sent

/-! ### Samples -/

def norFlash : Flash where
  flash_type := .SFC_NOR_FLASH
  size := 0x1000000
  writesize := 256
  erasesize := 4096
  burner := false
  norflash_partitions := []
  write_oob := true
  scanLastPage := false
  scan2ndPage := false
  buswidth16 := false
  badblockpos := 0
  writesize_pos := by decide
  erasesize_pos := by decide
  wholePages := by decide
  erasesize_lt := by decide
  norSizes := fun _ => ⟨⟨8,rfl⟩,⟨12,rfl⟩⟩

def nandFlash : Flash where
  flash_type := .SFC_NAND_FLASH
  size := 0x8000000
  writesize := 2048
  erasesize := 0x20000
  burner := false
  norflash_partitions := []
  write_oob := true
  scanLastPage := false
  scan2ndPage := false
  buswidth16 := false
  badblockpos := 0
  writesize_pos := by decide
  erasesize_pos := by decide
  wholePages := by decide
  erasesize_lt := by decide
  norSizes := fun nor => by cases nor

def quiet : Environment := ⟨fun _ => 0,0,4⟩

def reservedAt (offset size : BitVec 32) : Partition := ⟨size,offset,RESERVED_PART_SYMBOL_RO⟩

theorem write_before_partition :
    .norWrite 0x1f00 0x80 ∈ (Call.sfc_nor_write 0x1f00 0x80).commands norFlash quiet (scanLoop norFlash 1 [reservedAt 0x2000 0x1000]) ∧
    ¬ (Command.norWrite 0x1f00 0x80).changes norFlash 0x2000 := by
  have sent : Command.norWrite 0x1f00 0x80 ∈ (Call.sfc_nor_write 0x1f00 0x80).commands norFlash quiet
      (scanLoop norFlash 1 [reservedAt 0x2000 0x1000]) := by decide
  exact ⟨sent,@reserved_partitions_kept norFlash [reservedAt 0x2000 0x1000] _ _ _ rfl (by decide) .start
    (Call.sfc_nor_write 0x1f00 0x80) (show 0x1f00 + 0x80 < 2 ^ 32 by decide) quiet _ sent (reservedAt 0x2000 0x1000)
    (by decide) (by decide) (by decide) 0x2000 ⟨by decide,by decide⟩⟩

/-- A range that wraps, a sector that a partition shares, a block at the end of the address space. -/
theorem reserved_partition_changed :
    (∃ c ∈ (Call.sfc_nor_write 0x1f00 0xffffe100).commands norFlash quiet (scanLoop norFlash 1 [reservedAt 0x2000 0x1000]),
      c.changes norFlash 0x2000) ∧
    (∃ c ∈ (Call.sfc_nor_erase 0x2000 0x100).commands norFlash quiet (scanLoop norFlash 1 [reservedAt 0x2800 0x800]),
      c.changes norFlash 0x2800) ∧
    (∃ c ∈ (Call.jz_sfcnand_erase 0xfffe0000 0x1ffff).commands nandFlash quiet (scanLoop nandFlash 1 [reservedAt 0 0x20000]),
      c.changes nandFlash 0) := by
  refine ⟨⟨.norWrite 0x2000 256,by decide,rfl,fun _ => by decide⟩,⟨.norErase 0x2000,by decide,rfl⟩,
    ⟨.nandErase 0,by decide,rfl⟩⟩

end UBoot.ReservedPartSafe
