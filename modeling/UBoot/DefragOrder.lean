import UBoot.DefragSafe

/-!
Reassembly of one datagram, cut into fragments that arrive in any order and any number
of times. As long as the first fragment is missing, the hole at its place has index 0,
which the code reads as "no hole" in the back link of the hole behind. A fragment that
removes or moves that second hole takes it for the first one and drops the hole at index
0, so that the datagram is handed on without its beginning.
-/
namespace UBoot.DefragOrder
open List hiding keys keys_append keys_cons
open Chains NetDefrag HoleList DefragStep DefragSafe Runs

variable {len o x : Nat} {t : Reassembly}

/-- A datagram cut on 8-byte boundaries: fragment `i` is from `bound i` to `bound (i + 1)`. -/
structure Cutting (datagram : List UInt8) where
  count : Nat
  bound : Nat → Nat
  first : bound 0 = 0
  last : bound count = datagram.length
  filled : ∀ i < count, bound i < bound (i + 1)
  blocks : ∀ i < count, bound i % 8 = 0
  fits : datagram.length ≤ IP_MAXUDP

/-- A received packet that carries fragment `i`. -/
structure IsFragment {datagram : List UInt8} (c : Cutting datagram) (id i : Nat) (ip : List UInt8) : Prop where
  index : i < c.count
  sameId : ip_id ip = id
  offset : 8 * offset8 ip = c.bound i
  more : moreFragments ip = decide (i + 1 < c.count)
  length : ip_len ip = IP_HDR_SIZE + (c.bound (i + 1) - c.bound i)
  received : ip_len ip ≤ ip.length
  data : ∀ x, c.bound i ≤ x → x < c.bound (i + 1) → ip.getD (IP_HDR_SIZE + (x - c.bound i)) 0 = datagram.getD x 0

variable {datagram : List UInt8} {c : Cutting datagram} {s : Defrag} {ip : List UInt8} {id i k v w : Nat}
  {D : Finset ℕ} {H pre post : List (Nat × Nat)}

/-! ### Cuttings -/

theorem Cutting.bound_le (c : Cutting datagram) {i j : Nat} (le : i ≤ j) (inside : j ≤ c.count) : c.bound i ≤ c.bound j := by
  induction j, le using Nat.le_induction with
  | base => exact le_refl _
  | succ j le ih =>
    have := c.filled j (by omega)
    omega

theorem Cutting.bound_lt_iff (c : Cutting datagram) {i j : Nat} (iIn : i ≤ c.count) (jIn : j ≤ c.count) :
    c.bound i < c.bound j ↔ i < j := by
  constructor
  · intro less
    by_contra wrong
    have := c.bound_le (not_lt.mp wrong) iIn
    omega
  intro less
  have := c.filled i (by omega)
  have := c.bound_le (show i + 1 ≤ j by omega) jIn
  omega

theorem Cutting.bound_le_length (c : Cutting datagram) {i : Nat} (inside : i ≤ c.count) : c.bound i ≤ datagram.length := by
  rw [← c.last]
  exact c.bound_le inside (le_refl _)

theorem Cutting.exists_fragment (c : Cutting datagram) (inside : x < datagram.length) :
    ∃ l < c.count, c.bound l ≤ x ∧ x < c.bound (l+1) := by
  -- the last bound that is not behind the byte
  have found : ∃ j, x < c.bound j := ⟨c.count,by rw [c.last]; exact inside⟩
  have least : ∀ j < Nat.find found, c.bound j ≤ x := fun j less => not_lt.mp (Nat.find_min found less)
  have behind := Nat.find_spec found
  have small : Nat.find found ≤ c.count := Nat.find_min' found (by rw [c.last]; exact inside)
  cases at_ : Nat.find found with
  | zero =>
    rw [at_,c.first] at behind
    omega
  | succ l =>
    rw [at_] at behind small least
    exact ⟨l,by omega,least l (by omega),behind⟩

theorem Cutting.fragment_unique (c : Cutting datagram) {l m : Nat} (lIn : l < c.count) (mIn : m < c.count)
    (left : c.bound l ≤ x ∧ x < c.bound (l+1)) (right : c.bound m ≤ x ∧ x < c.bound (m+1)) : l = m := by
  have one := (c.bound_lt_iff (show l ≤ c.count by omega) (show m + 1 ≤ c.count by omega)).mp (by omega)
  have other := (c.bound_lt_iff (show m ≤ c.count by omega) (show l + 1 ≤ c.count by omega)).mp (by omega)
  omega

def Cutting.Has (c : Cutting datagram) (D : Finset ℕ) (x : Nat) : Prop :=
  ∃ l ∈ D, l < c.count ∧ c.bound l ≤ x ∧ x < c.bound (l + 1)

/-- Where the packet ends, as far as the delivered fragments tell. -/
def Cutting.limit (c : Cutting datagram) (D : Finset ℕ) : Nat := if c.count - 1 ∈ D then datagram.length else 65535

theorem Cutting.has_insert (c : Cutting datagram) (inside : i < c.count) :
    c.Has (insert i D) x ↔ (c.bound i ≤ x ∧ x < c.bound (i+1)) ∨ c.Has D x := by
  constructor
  · rintro ⟨l,member,lIn,here⟩
    rcases Finset.mem_insert.mp member with rfl | old
    · exact .inl here
    · exact .inr ⟨l,old,lIn,here⟩
  rintro (here | ⟨l,old,lIn,here⟩)
  · exact ⟨i,Finset.mem_insert_self ..,inside,here⟩
  · exact ⟨l,Finset.mem_insert_of_mem old,lIn,here⟩

theorem Cutting.has_bound (c : Cutting datagram) (inside : i < c.count) : c.Has D (c.bound i) ↔ i ∈ D := by
  constructor
  · rintro ⟨l,member,lIn,here⟩
    rwa [← c.fragment_unique lIn inside here ⟨le_refl _,c.filled i inside⟩]
  · intro member
    exact ⟨i,member,inside,le_refl _,c.filled i inside⟩

theorem Cutting.has_lt (c : Cutting datagram) (has : c.Has D x) : x < datagram.length := by
  obtain ⟨l,_,lIn,_,less⟩ := has
  have := c.bound_le_length (show l + 1 ≤ c.count by omega)
  omega

theorem Cutting.has_block (c : Cutting datagram) (has : c.Has D x) : c.Has D (8 * (x / 8)) := by
  obtain ⟨l,member,lIn,low,high⟩ := has
  have := c.blocks l lIn
  exact ⟨l,member,lIn,by omega,by omega⟩

theorem IsFragment.piece (fragment : IsFragment c id i ip) : Piece ip (offset8 ip) (c.bound (i+1) - c.bound i) := by
  have := c.filled i fragment.index
  have := c.bound_le_length (show i + 1 ≤ c.count from fragment.index)
  have := c.fits
  have := fragment.offset
  have := fragment.received
  exact ⟨rfl,fragment.length,by rw [← fragment.length]; assumption,by omega⟩

/-! ### Holes as missing bytes -/

def Open (H : List (Nat × Nat)) (x : Nat) : Prop := ∃ h ∈ H, 8 * h.1 ≤ x ∧ x < h.2

@[simp] theorem open_nil (x : Nat) : ¬ Open [] x := by simp [Open]

@[simp] theorem open_append (x : Nat) : Open (pre ++ post) x ↔ Open pre x ∨ Open post x := by
  simp [Open,or_and_right,exists_or]

@[simp] theorem open_cons (x : Nat) : Open ((k,v) :: post) x ↔ (8 * k ≤ x ∧ x < v) ∨ Open post x := by
  simp [Open]

/-- The holes are the bytes still missing, and no two of them touch. -/
structure Describes (c : Cutting datagram) (D : Finset ℕ) (H : List (Nat × Nat)) : Prop where
  filled : ∀ h ∈ H, 8 * h.1 < h.2
  gap : H.Pairwise fun a b => a.2 < 8 * b.1
  missing : ∀ x, Open H x ↔ x < c.limit D ∧ ¬ c.Has D x

theorem Describes.ordered (describes : Describes c D H) : Ordered H :=
  ⟨describes.filled,describes.gap.imp fun less => less.le⟩

theorem Describes.side (describes : Describes c D H) {a b : Nat × Nat} (aIn : a ∈ H) (bIn : b ∈ H) (differ : a ≠ b) :
    a.2 < 8 * b.1 ∨ b.2 < 8 * a.1 := by
  have either : H.Pairwise fun a b => a.2 < 8 * b.1 ∨ b.2 < 8 * a.1 := describes.gap.imp .inl
  have symmetric : Std.Symm fun a b : Nat × Nat => a.2 < 8 * b.1 ∨ b.2 < 8 * a.1 := ⟨fun _ _ => Or.symm⟩
  exact either.forall aIn bIn differ

theorem Describes.one_hole (describes : Describes c D H) {a b : Nat} (filled : a < b)
    (all : ∀ x, a ≤ x → x < b → Open H x) : ∃ h ∈ H, 8 * h.1 ≤ a ∧ b ≤ h.2 := by
  obtain ⟨h,member,low,high⟩ := all a (le_refl _) filled
  refine ⟨h,member,low,?_⟩
  by_contra short
  -- the byte right behind the hole lies in another one
  obtain ⟨g,other,lowG,highG⟩ := all h.2 (by omega) (by omega)
  rcases describes.side member other (by rintro rfl; omega) with before | before
  · omega
  · omega

theorem Describes.not_listed (describes : Describes c D H) (has : c.Has D x) : x / 8 ∉ keys H := by
  intro listed
  obtain ⟨h,member,block⟩ := mem_map.mp listed
  have filled := describes.filled h member
  have missing := (describes.missing (8 * (x / 8))).mp ⟨h,member,by omega,by omega⟩
  exact missing.2 (c.has_block has)

theorem Describes.complete_iff (describes : Describes c D H) (cut : 0 < c.count) : H = [] ↔ ∀ l < c.count, l ∈ D := by
  have fits := c.fits
  have sizes := maxHoles_eq
  constructor
  · rintro rfl l lIn
    have closed : ∀ x < c.limit D, c.Has D x := by
      intro x inside
      by_contra absent
      exact open_nil x ((describes.missing x).mpr ⟨inside,absent⟩)
    have total : c.limit D = datagram.length := by
      by_contra other
      have top : c.limit D = 65535 := by
        unfold Cutting.limit at other ⊢
        split_ifs at other ⊢ with known
        · exact absurd rfl other
        · rfl
      have := c.has_lt (closed 65534 (by omega))
      omega
    apply (c.has_bound lIn).mp
    apply closed
    have := c.filled l lIn
    have := c.bound_le_length (show l + 1 ≤ c.count from lIn)
    omega
  intro all
  rw [eq_nil_iff_forall_not_mem]
  intro h member
  have filled := describes.filled h member
  obtain ⟨inside,absent⟩ := (describes.missing (8*h.1)).mp ⟨h,member,le_refl _,filled⟩
  rw [Cutting.limit,if_pos (all _ (by omega))] at inside
  obtain ⟨l,lIn,here⟩ := c.exists_fragment inside
  exact absent ⟨l,all l lIn,lIn,here⟩

/-! ### A fragment that was missing -/

/-- What is left of the hole `(k,w)` around the bytes from `8 * o`. -/
def leftOver (o len k w : Nat) : List (Nat × Nat) :=
  (if o ≤ k then [] else [(k,8 * o)]) ++ (if w ≤ 8 * o + len then [] else [(o + len / 8,w)])

theorem fixedList_eq (stays : o ≤ k → kept pre = pre) :
    fixedList o len pre k w post = pre ++ (leftOver o len k w ++ post) := by
  unfold fixedList leftOver
  split_ifs with ends begins begins
  · simp [stays begins]
  · simp
  · simp [stays begins]
  · simp

theorem leftOver_filled : ∀ h ∈ leftOver o len k w, 8 * h.1 < h.2 := by
  unfold leftOver
  simp only [mem_append,mem_ite_nil_left,mem_singleton]
  rintro h (⟨begins,rfl⟩ | ⟨ends,rfl⟩)
  · omega
  · omega

theorem leftOver_inside (low : k ≤ o) (high : 8 * o ≤ w) : ∀ h ∈ leftOver o len k w, k ≤ h.1 ∧ h.2 ≤ w := by
  unfold leftOver
  simp only [mem_append,mem_ite_nil_left,mem_singleton]
  rintro h (⟨begins,rfl⟩ | ⟨ends,rfl⟩)
  · exact ⟨le_refl _,high⟩
  · exact ⟨by omega,le_refl _⟩

theorem leftOver_gap (filled : 0 < len) (aligned : 8 * o + len < w → len % 8 = 0) :
    (leftOver o len k w).Pairwise fun a b => a.2 < 8 * b.1 := by
  unfold leftOver
  split_ifs with begins ends ends
  · simp
  · simp
  · simp
  · simp
    omega

theorem leftOver_open (low : k ≤ o) (aligned : 8 * o + len < w → len % 8 = 0) (x : Nat) :
    Open (leftOver o len k w) x ↔ (8 * k ≤ x ∧ x < 8 * o) ∨ (8 * o + len ≤ x ∧ x < w) := by
  unfold leftOver
  rw [open_append]
  apply or_congr
  · split_ifs with begins
    · simp only [open_nil,false_iff]
      omega
    · simp
  split_ifs with ends
  · simp only [open_nil,false_iff]
    omega
  · simp only [open_cons,open_nil,or_false]
    omega

theorem gap_replace {R : List (Nat × Nat)} (gap : (pre ++ (k,v) :: post).Pairwise fun a b => a.2 < 8 * b.1)
    (inner : R.Pairwise fun a b => a.2 < 8 * b.1) (inside : ∀ h ∈ R, k ≤ h.1 ∧ h.2 ≤ v) :
    (pre ++ (R ++ post)).Pairwise fun a b => a.2 < 8 * b.1 := by
  rw [pairwise_append,pairwise_cons] at gap
  obtain ⟨inPre,⟨fromHole,inPost⟩,cross⟩ := gap
  rw [pairwise_append,pairwise_append]
  refine ⟨inPre,⟨inner,inPost,?_⟩,?_⟩
  · intro a aIn b bIn
    have := (inside a aIn).2
    have := fromHole b bIn
    omega
  intro a aIn b bIn
  rcases mem_append.mp bIn with bIn | bIn
  · have := (inside b bIn).1
    have := cross a aIn (k,v) mem_cons_self
    omega
  · exact cross a aIn b (mem_cons_of_mem _ bIn)

/-- A fragment that did not arrive yet lies in one hole, and the last one in a hole that
    has no end. -/
theorem Describes.fragment_hole (describes : Describes c D H) (index : i < c.count) (new : i ∉ D) :
    ∃ h ∈ H, 8 * h.1 ≤ c.bound i ∧ c.bound (i+1) ≤ h.2 ∧ (i + 1 = c.count → 65535 ≤ h.2) := by
  have filled := c.filled i index
  have short := c.bound_le_length (show i + 1 ≤ c.count from index)
  have fits := c.fits
  have sizes := maxHoles_eq
  have absent : ∀ x, c.bound i ≤ x → x < c.bound (i+1) → ¬ c.Has D x := by
    rintro x low high ⟨l,member,lIn,here⟩
    rw [c.fragment_unique lIn index here ⟨low,high⟩] at member
    exact new member
  by_cases last : i + 1 = c.count
  · have top : c.limit D = 65535 := if_neg (by rwa [show c.count - 1 = i by omega])
    have total : c.bound (i+1) = datagram.length := by rw [last,c.last]
    obtain ⟨h,member,low,high⟩ := describes.one_hole (show c.bound i < 65535 by omega) fun x low high => by
      refine (describes.missing x).mpr ⟨by omega,?_⟩
      by_cases inside : x < c.bound (i+1)
      · exact absent x low inside
      intro has
      have := c.has_lt has
      omega
    exact ⟨h,member,low,by omega,fun _ => high⟩
  have top : datagram.length ≤ c.limit D := by
    unfold Cutting.limit
    split_ifs <;> omega
  obtain ⟨h,member,low,high⟩ := describes.one_hole filled fun x low high =>
    (describes.missing x).mpr ⟨by omega,absent x low high⟩
  exact ⟨h,member,low,high,fun wrong => absurd wrong last⟩

theorem Describes.put (describes : Describes c D (pre ++ (k,v) :: post)) (index : i < c.count) (new : i ∉ D)
    (offset : 8 * o = c.bound i) (length : 8 * o + len = c.bound (i+1)) (low : k ≤ o)
    (high : 8 * o + len ≤ v) (endless : i + 1 = c.count → 65535 ≤ v) (stays : o ≤ k → kept pre = pre)
    (ends : w = if i + 1 < c.count then v else 8 * o + len) : Describes c (insert i D) (fixedList o len pre k w post) := by
  have filled := c.filled i index
  have fits := c.fits
  have sizes := maxHoles_eq
  have le : 8 * o + len ≤ w ∧ w ≤ v := by
    split_ifs at ends <;> omega
  have aligned : 8 * o + len < w → len % 8 = 0 := by
    intro more
    have notLast : i + 1 < c.count := by
      by_contra last
      rw [if_neg last] at ends
      omega
    have := c.blocks (i+1) notLast
    omega
  have below : ∀ x, Open pre x → x < 8 * k := by
    rintro x ⟨h,member,_,high⟩
    have := (pairwise_append.mp describes.gap).2.2 h member (k,v) mem_cons_self
    omega
  have above : ∀ x, Open post x → v < x := by
    rintro x ⟨h,member,low,_⟩
    have := (pairwise_cons.mp (pairwise_append.mp describes.gap).2.1).1 h member
    omega
  rw [fixedList_eq stays]
  refine ⟨?_,?_,?_⟩
  · simp only [mem_append]
    rintro h (member | member | member)
    · exact describes.filled h (by simp [member])
    · exact leftOver_filled h member
    · exact describes.filled h (by simp [member])
  · apply gap_replace describes.gap
    · apply leftOver_gap (by omega) aligned
    intro h member
    have := leftOver_inside low (by omega) h member
    omega
  intro x
  have old := describes.missing x
  simp only [open_append,open_cons] at old
  rw [open_append,open_append,leftOver_open low aligned,c.has_insert index]
  by_cases last : i + 1 = c.count
  · have total : c.bound (i+1) = datagram.length := by rw [last,c.last]
    have before : c.limit D = 65535 := if_neg (by rwa [show c.count - 1 = i by omega])
    have after : c.limit (insert i D) = datagram.length := if_pos (by simp [show c.count - 1 = i by omega])
    -- the list ends with this hole, and what lies behind the datagram is not missing
    grind
  have same : c.limit (insert i D) = c.limit D := by
    unfold Cutting.limit
    simp only [Finset.mem_insert,show c.count - 1 ≠ i by omega,false_or]
  grind

/-! ### The hole at index 0 -/

/-- The first fragment is missing, and the fragment is the one directly behind the lowest
    fragments that arrived. -/
def Strands (D : Finset ℕ) (i : Nat) : Prop :=
  0 ∉ D ∧ i ∉ D ∧ ∃ j < i, (∀ l < j, l ∉ D) ∧ ∀ l, j ≤ l → l < i → l ∈ D

/-- A back link of 0 is that of the first hole, or of the one behind the hole at index 0. -/
theorem lastOr_zero (holes : Holes s (pre ++ (k,v) :: post)) (zero : lastOr 0 pre = 0) : pre = [] ∨ ∃ a, pre = [(0,a)] := by
  rcases pre with _ | ⟨⟨j,a⟩,rest⟩
  · exact .inl rfl
  rcases rest with _ | ⟨h,rest⟩
  · exact .inr ⟨a,by rw [show j = 0 from zero]⟩
  have member : lastOr j (h :: rest) ∈ keys (h :: rest) := lastOr_mem (by simp)
  rw [show lastOr j (h :: rest) = 0 from zero] at member
  have sorted := holes.sorted
  rw [cons_append,keys_cons,pairwise_cons] at sorted
  have := sorted.1 0 (by rw [keys_append]; exact mem_append_left _ member)
  omega

/-- Only such a fragment begins the second hole while the first one is at index 0. -/
theorem Describes.strands {a : Nat} (describes : Describes c D ((0,a) :: (k,v) :: post)) (index : i < c.count) (new : i ∉ D)
    (begins : c.bound i = 8 * k) : Strands D i := by
  have filled := describes.filled (0,a) mem_cons_self
  have gap : a < 8 * k := (pairwise_cons.mp describes.gap).1 (k,v) mem_cons_self
  have inside : 8 * k < c.limit D := ((describes.missing (8*k)).mp
    ⟨(k,v),by simp,le_refl _,describes.filled (k,v) (by simp)⟩).1
  -- the bytes before `a` are missing, those from there to the second hole have arrived
  have absent : ∀ x < a, ¬ c.Has D x := fun x less => ((describes.missing x).mp ⟨(0,a),by simp,by simp,less⟩).2
  have present : ∀ x, a ≤ x → x < 8 * k → c.Has D x := by
    intro x low high
    by_contra none
    obtain ⟨h,member,from_,to_⟩ := (describes.missing x).mpr ⟨by omega,none⟩
    rcases mem_cons.mp member with rfl | later
    · omega
    rcases mem_cons.mp later with rfl | later
    · omega
    have := (pairwise_cons.mp (pairwise_cons.mp describes.gap).2).1 h later
    have := describes.filled (k,v) (by simp)
    omega
  have found : ∃ j, a ≤ c.bound j := ⟨i,by omega⟩
  have small : Nat.find found ≤ i := Nat.find_min' found (by omega)
  have early : ∀ l < Nat.find found, l ∉ D := by
    intro l less member
    have := Nat.find_min found less
    exact absent (c.bound l) (by omega) ((c.has_bound (by omega)).mpr member)
  refine ⟨?_,new,Nat.find found,?_,early,?_⟩
  · intro member
    have has := (c.has_bound (by omega)).mpr member
    rw [c.first] at has
    exact absent 0 (by omega) has
  · by_contra all
    obtain ⟨l,member,lIn,low,_⟩ := present a (le_refl _) gap
    have less := (c.bound_lt_iff lIn.le index.le).mp (by omega)
    exact early l (by omega) member
  intro l low high
  have := c.bound_le low (by omega)
  have := Nat.find_spec found
  have := (c.bound_lt_iff (by omega) index.le).mpr high
  exact (c.has_bound (by omega)).mp (present _ (by omega) (by omega))

/-! ### One delivery -/

/-- The packet in progress is the datagram, of which the fragments `D` have arrived. -/
structure Collecting (c : Cutting datagram) (id : Nat) (s : Defrag) (D : Finset ℕ) (H : List (Nat × Nat)) : Prop where
  holes : Holes s H
  describes : Describes c D H
  sameId : ip_id s.header = id
  started : s.total_len ≠ 0
  total : c.count - 1 ∈ D → s.total_len = datagram.length
  bytes : ∀ x, c.Has D x → s.payload x = datagram.getD x 0

/-- What a delivery leads to: the whole datagram once all fragments have arrived, and
    nothing before. -/
def Delivered (c : Cutting datagram) (id : Nat) (D : Finset ℕ) (s : Defrag) (r : Option Nat) : Prop :=
  ((∀ l < c.count, l ∈ D) ∧ r = some (datagram.length + IP_HDR_SIZE) ∧
      ∀ x < datagram.length, s.payload x = datagram.getD x 0) ∨
    ((∃ l < c.count, l ∉ D) ∧ r = none ∧ ∃ H, H ≠ [] ∧ Collecting c id s D H)

theorem IsFragment.last_iff (fragment : IsFragment c id i ip) : moreFragments ip = false ↔ i + 1 = c.count := by
  have := fragment.index
  rw [fragment.more,decide_eq_false_iff_not]
  omega

theorem fixedList_complete (complete : Completes o len pre k w post) : fixedList o len pre k w post = [] := by
  obtain ⟨begins,ends,first,none⟩ := complete
  rw [fixedList,if_pos ends,if_pos begins,none,kept,if_pos first]
  rfl

theorem Collecting.accepted (collecting : Collecting c id s D (pre ++ (k,v) :: post)) (fragment : IsFragment c id i ip)
    (length : c.bound (i+1) - c.bound i = len) (before : ∀ h ∈ pre, h.2 < 8 * offset8 ip)
    (overlaps : k < offset8 ip + (len+7) / 8) (oneHole : ∀ j ∈ keys post, 8 * offset8 ip + len ≤ 8 * j)
    (after : Describes c (insert i D) (fixedList (offset8 ip) len pre k (holeEnd ip (offset8 ip) len v) post)) :
    ∃ s' r, accept s ip k = some (s',r) ∧ Delivered c id (insert i D) s' r := by
  subst length
  have index := fragment.index
  have offset := fragment.offset
  have filled := c.filled i index
  have fits := c.fits
  have aligned : moreFragments ip = true → 8 * offset8 ip + (c.bound (i+1) - c.bound i) < v →
      (c.bound (i+1) - c.bound i) % 8 = 0 ∧ 8 * offset8 ip + (c.bound (i+1) - c.bound i) < IP_MAXUDP := by
    intro more _
    rw [fragment.more,decide_eq_true_eq] at more
    have := c.blocks (i+1) more
    have := c.filled (i+1) more
    have := c.bound_le_length (show i + 1 + 1 ≤ c.count from more)
    omega
  obtain ⟨s',r,done,total,copied,outcome⟩ :=
    accept_spec collecting.holes collecting.describes.ordered fragment.piece before overlaps oneHole aligned
  have bytes : ∀ x, c.Has (insert i D) x → s'.payload x = datagram.getD x 0 := by
    intro x has
    by_cases here : c.bound i ≤ x ∧ x < c.bound (i+1)
    · rw [copied.inside x (by omega) (by omega),offset]
      exact fragment.data x here.1 here.2
    have old := ((c.has_insert index).mp has).resolve_left here
    rw [copied.outside x (by omega)]
    · exact collecting.bytes x old
    intro listed
    rcases mem_append.mp listed with new | listed
    · exact after.not_listed has new
    · exact collecting.describes.not_listed old listed
  have lengthKnown : c.count - 1 ∈ insert i D → s'.total_len = datagram.length := by
    intro known
    rw [total,totalLen]
    by_cases last : i + 1 = c.count
    · rw [if_neg (by rw [fragment.last_iff.mpr last]; decide),← c.last,← last]
      omega
    rw [if_pos (by simpa using mt fragment.last_iff.mp last)]
    apply collecting.total
    exact (Finset.mem_insert.mp known).resolve_left (by omega)
  have started : s'.total_len ≠ 0 := by
    rw [total,totalLen]
    split_ifs
    · exact collecting.started
    · omega
  refine ⟨s',r,done,?_⟩
  have completes := after.complete_iff (by omega)
  rcases outcome with ⟨complete,rfl⟩ | ⟨incomplete,rfl,header,list,_⟩
  · have all := completes.mp (fixedList_complete complete)
    refine .inl ⟨all,?_,?_⟩
    · rw [← total,lengthKnown (all _ (by omega))]
    intro x inside
    obtain ⟨l,lIn,here⟩ := c.exists_fragment inside
    exact bytes x ⟨l,all l lIn,lIn,here⟩
  have left := fixedList_nonempty incomplete
  refine .inr ⟨?_,rfl,_,left,list,after,?_,started,lengthKnown,bytes⟩
  · by_contra none
    push Not at none
    exact left (completes.mpr none)
  · rw [header,collecting.sameId]

theorem Collecting.located (collecting : Collecting c id s D (pre ++ (k,v) :: post)) (fragment : IsFragment c id i ip)
    (new : i ∉ D) (before : ∀ h ∈ pre, h.2 < 8 * offset8 ip) (reaches : 8 * offset8 ip ≤ v) :
    8 * k ≤ c.bound i ∧ c.bound (i+1) ≤ v ∧ (i + 1 = c.count → 65535 ≤ v) := by
  have offset := fragment.offset
  have filled := c.filled i fragment.index
  obtain ⟨h,member,low,high,endless⟩ := collecting.describes.fragment_hole fragment.index new
  rcases mem_append.mp member with early | here
  · have := before h early
    omega
  rcases mem_cons.mp here with rfl | late
  · exact ⟨low,high,endless⟩
  have gap := (pairwise_append.mp collecting.describes.gap).2.1
  have := (pairwise_cons.mp gap).1 h late
  omega

theorem Collecting.accept_new (collecting : Collecting c id s D (pre ++ (k,v) :: post)) (fragment : IsFragment c id i ip)
    (new : i ∉ D) (sound : ¬ Strands D i) (before : ∀ h ∈ pre, h.2 < 8 * offset8 ip) (reaches : 8 * offset8 ip ≤ v) :
    ∃ s' r, accept s ip k = some (s',r) ∧ Delivered c id (insert i D) s' r := by
  have offset := fragment.offset
  have filled := c.filled i fragment.index
  obtain ⟨low,high,endless⟩ := collecting.located fragment new before reaches
  have stays : offset8 ip ≤ k → kept pre = pre := by
    intro begins
    unfold kept
    split_ifs with zero
    · rcases lastOr_zero collecting.holes zero with rfl | ⟨a,rfl⟩
      · rfl
      · exact absurd (collecting.describes.strands fragment.index new (by omega)) sound
    · rfl
  have ends : holeEnd ip (offset8 ip) (c.bound (i+1) - c.bound i) v =
      if i + 1 < c.count then v else 8 * offset8 ip + (c.bound (i+1) - c.bound i) := by
    simp only [holeEnd,fragment.more,decide_eq_true_eq]
  apply collecting.accepted fragment rfl before (by omega)
  · intro j listed
    obtain ⟨h,member,rfl⟩ := mem_map.mp listed
    have gap := (pairwise_append.mp collecting.describes.gap).2.1
    have := (pairwise_cons.mp gap).1 h member
    omega
  · exact collecting.describes.put fragment.index new offset (by omega) (by omega) (by omega) endless stays ends

/-- A duplicate is accepted only at the hole that ends where it begins, and changes
    nothing there. -/
theorem Collecting.accept_again (collecting : Collecting c id s D (pre ++ (k,v) :: post)) (fragment : IsFragment c id i ip)
    (old : i ∈ D) (before : ∀ h ∈ pre, h.2 < 8 * offset8 ip) (reaches : 8 * offset8 ip ≤ v)
    (overlaps : k < offset8 ip + (c.bound (i+1) - c.bound i + 7) / 8) :
    ∃ s' r, accept s ip k = some (s',r) ∧ Delivered c id (insert i D) s' r := by
  have offset := fragment.offset
  have filled := c.filled i fragment.index
  have apart : ∀ h ∈ pre ++ (k,v) :: post, ∀ x, c.bound i ≤ x → x < c.bound (i+1) → ¬ (8 * h.1 ≤ x ∧ x < h.2) := by
    intro h member x low high inside
    exact ((collecting.describes.missing x).mp ⟨h,member,inside⟩).2 ⟨i,old,fragment.index,low,high⟩
  have holeFilled := collecting.describes.filled (k,v) (by simp)
  have notAtHole := apart (k,v) (by simp) (8*k)
  have notAtFragment := apart (k,v) (by simp) (c.bound i) (le_refl _) filled
  have ends : v = 8 * offset8 ip := by omega
  have same : fixedList (offset8 ip) (c.bound (i+1) - c.bound i) pre k
      (holeEnd ip (offset8 ip) (c.bound (i+1) - c.bound i) v) post = pre ++ (k,v) :: post := by
    have within : holeEnd ip (offset8 ip) (c.bound (i+1) - c.bound i) v ≤
        8 * offset8 ip + (c.bound (i+1) - c.bound i) := by
      unfold holeEnd
      split_ifs <;> omega
    rw [fixedList,if_pos within,if_neg (by omega),ends]
  apply collecting.accepted fragment rfl before overlaps
  · intro j listed
    obtain ⟨h,member,rfl⟩ := mem_map.mp listed
    have gap := (pairwise_append.mp collecting.describes.gap).2.1
    have := (pairwise_cons.mp gap).1 h member
    have := collecting.describes.filled h (by simp [member])
    have := apart h (by simp [member]) (8*h.1)
    omega
  · rw [same,Finset.insert_eq_of_mem old]
    exact collecting.describes

theorem Collecting.delivery (collecting : Collecting c id s D H) (left : H ≠ []) (fragment : IsFragment c id i ip)
    (sound : ¬ Strands D i) : ∃ s' r, collect s ip = some (s',r) ∧ Delivered c id (insert i D) s' r := by
  have offset := fragment.offset
  have filled := c.filled i fragment.index
  have lastIs := fragment.piece.lastBlock
  rcases collect_cases collecting.holes left ip with ⟨dropped,why⟩ | ⟨pre,k,v,post,rfl,before,reaches,overlaps,accepted⟩
  · -- only a duplicate is dropped
    have old : i ∈ D := by
      by_contra new
      rcases why with all | ⟨pre,k,v,post,rfl,before,reaches,behind⟩
      · obtain ⟨h,member,_,high,_⟩ := collecting.describes.fragment_hole fragment.index new
        have := all h member
        omega
      · have := collecting.located fragment new before reaches
        omega
    refine ⟨s,none,dropped,.inr ⟨?_,rfl,H,left,?_⟩⟩
    · by_contra none
      push Not at none
      rw [Finset.insert_eq_of_mem old] at none
      exact left ((collecting.describes.complete_iff (by have := fragment.index; omega)).mpr none)
    · rwa [Finset.insert_eq_of_mem old]
  rw [accepted]
  by_cases old : i ∈ D
  · exact collecting.accept_again fragment old before reaches (by omega)
  · exact collecting.accept_new fragment old sound before reaches

/-! ### Deliveries -/

/-- The static state and the fragments delivered so far. -/
structure Reassembly where
  net : Defrag
  delivered : Finset ℕ

structure Delivery where
  index : Nat
  ip : List UInt8

def Step (c : Cutting datagram) (id : Nat) (t : Reassembly) (d : Delivery) (u : Reassembly) : Prop :=
  IsFragment c id d.index d.ip ∧ u.delivered = insert d.index t.delivered ∧
    ∃ r, __NetDefragment t.net d.ip = some (u.net,r)

def KeepsFirstHole (t : Reassembly) (d : Delivery) : Prop := ¬ Strands t.delivered d.index

def Idle (s : Defrag) (id : Nat) : Prop := s.total_len = 0 ∨ ip_id s.header ≠ id

/-- What holds between deliveries while the datagram is not complete. -/
def InProgress (c : Cutting datagram) (id : Nat) (t : Reassembly) : Prop :=
  (t.delivered = ∅ ∧ Idle t.net id) ∨ ∃ H, H ≠ [] ∧ Collecting c id t.net t.delivered H

def UntilComplete (c : Cutting datagram) (id : Nat) (t : Reassembly) : Prop :=
  (∀ l < c.count, l ∈ t.delivered) ∨ InProgress c id t

theorem ip_id_take (ip : List UInt8) : ip_id (ip.take IP_HDR_SIZE) = ip_id ip := by
  simp [ip_id,be16,getD_eq_getElem?_getD,IP_HDR_SIZE]

theorem opened_collecting (inProgress : InProgress c id t) (fragment : IsFragment c id i ip) :
    ∃ s H, opened t.net ip = some s ∧ H ≠ [] ∧ Collecting c id s t.delivered H := by
  rcases inProgress with ⟨none,idle⟩ | ⟨H,left,collecting⟩
  · have fresh : startsNew t.net ip := by rwa [startsNew,fragment.sameId]
    obtain ⟨s,done,list,header,total⟩ := reset_spec t.net fragment.piece.header
    refine ⟨s,_,by rw [opened,if_pos fresh,done],by simp,list,⟨?_,?_,?_⟩,?_,?_,?_,?_⟩
    · simp
    · simp
    · simp [none,Cutting.limit,Cutting.Has]
    · rw [header,ip_id_take,fragment.sameId]
    · rw [total]
      decide
    · simp [none]
    · simp [none,Cutting.Has]
  have goesOn : ¬ startsNew t.net ip := by
    rw [startsNew,fragment.sameId,collecting.sameId]
    simp [collecting.started]
  exact ⟨t.net,H,if_neg goesOn,left,collecting⟩

theorem deliver_next (inProgress : InProgress c id t) (fragment : IsFragment c id i ip)
    (sound : ¬ Strands t.delivered i) :
    ∃ s r, __NetDefragment t.net ip = some (s,r) ∧ Delivered c id (insert i t.delivered) s r := by
  obtain ⟨s,H,done,left,collecting⟩ := opened_collecting inProgress fragment
  obtain ⟨s',r,collected,delivered⟩ := collecting.delivery left fragment sound
  have inside : ¬ extendsTooFar ip := by
    have := fragment.piece.room
    have := fragment.piece.length
    unfold extendsTooFar
    omega
  refine ⟨s',r,?_,delivered⟩
  rw [opened] at done
  rw [__NetDefragment,if_neg inside,done,Option.bind_some,collected]

theorem run_until_complete {ds : List Delivery} (idle : Idle s id)
    (run : Run (Guarded KeepsFirstHole (Step c id)) ⟨s,∅⟩ ds t) : UntilComplete c id t := by
  apply run.invariant
  · exact .inr (.inl ⟨rfl,idle⟩)
  rintro t d u known ⟨sound,fragment,delivered,r,done⟩
  rw [UntilComplete,delivered]
  rcases known with all | inProgress
  · exact .inl fun l lIn => Finset.mem_insert_of_mem (all l lIn)
  obtain ⟨s',r',same,outcome⟩ := deliver_next inProgress fragment sound
  rw [done,Option.some.injEq,Prod.mk.injEq] at same
  rcases outcome with ⟨all,_⟩ | ⟨_,_,H,left,collecting⟩
  · exact .inl all
  · refine .inr (.inr ⟨H,left,?_⟩)
    rwa [same.1,delivered]

def letters : List UInt8 := [1,2,3,4,5,6,7,8,9,10,11,12,13,14,15,16,17,18,19,20,21,22,23,24]

def thirds : Cutting letters where
  count := 3
  bound i := 8 * i
  first := rfl
  last := rfl
  filled _ _ := by omega
  blocks _ _ := by omega
  fits := by decide

def third : Nat → List UInt8
  | 0 => packet 28 7 0x2000 0x46c8 (letters.take 8)
  | 1 => packet 28 7 0x2001 0x46c7 ((letters.drop 8).take 8)
  | _ => packet 28 7 0x0002 0x66c6 (letters.drop 16)

theorem third_isFragment {i : Nat} (inside : i < 3) : IsFragment thirds 7 i (third i) := by
  have data : ∀ i < 3, ∀ x < 24, 8 * i ≤ x → x < 8 * (i+1) →
      (third i).getD (IP_HDR_SIZE + (x - 8 * i)) 0 = letters.getD x 0 := by decide +kernel
  have fields : ∀ i < 3, ip_id (third i) = 7 ∧ 8 * offset8 (third i) = 8 * i ∧
      moreFragments (third i) = decide (i + 1 < 3) ∧ ip_len (third i) = 28 ∧ 28 ≤ (third i).length := by decide +kernel
  obtain ⟨sameId,offset,more,length,received⟩ := fields i inside
  refine ⟨inside,sameId,offset,more,?_,length ▸ received,?_⟩
  · rw [length]
    change 28 = 20 + (8 * (i+1) - 8 * i)
    omega
  intro x low high
  change x < 8 * (i+1) at high
  exact data i inside x (by omega) low high

end UBoot.DefragOrder
