import UBoot.EnvRoundTrip
import UBoot.QsortOrder

/-!
Whether an export depends on the contents of the table alone. The list of entries is
sorted by `strcmp`, which keeps the difference of two characters in a `signed char`;
where that does not order the keys, two tables with the same contents are exported
differently (`export_canonical_iff`).
-/
namespace UBoot.HexportCanonical
open List CStrings Runs Himport Hashtable HashtableMap Qsort QsortOrder Hexport EnvRoundTrip

variable {t u : HsearchData} {argv keys : List CString} {flag : Nat}

/-! ### What an export depends on -/

def pair (ep : ENTRY) : CString × CString := (ep.key,ep.data)

def sortedList (t : HsearchData) (flag : Nat) (argv : List CString) : List ENTRY :=
  (qsort cmpkey (exportList t flag argv).toArray).toList

theorem sortedList_perm (t : HsearchData) (flag : Nat) (argv : List CString) :
    (sortedList t flag argv).Perm (exportList t flag argv) := sorted_perm _

def SameMap (t u : HsearchData) : Prop := ∀ key data, Holds t key data ↔ Holds u key data

theorem mem_pairs {t : HsearchData} {flag : Nat} {argv : List CString} {key data : CString} :
    (key,data) ∈ (exportList t flag argv).map pair ↔ Holds t key data ∧ selected flag argv ⟨key,data,none,0⟩ = true := by
  rw [mem_map]
  constructor
  · rintro ⟨ep,member,same⟩
    cases same
    obtain ⟨i,live,chosen,rfl⟩ := mem_exported.mp member
    exact ⟨⟨i,live,rfl,rfl⟩,chosen⟩
  · rintro ⟨⟨i,live,rfl,rfl⟩,chosen⟩
    exact ⟨(t.table i).entry,mem_exported.mpr ⟨i,live,chosen,rfl⟩,rfl⟩

theorem pairs_perm (invT : Inv t) (invU : Inv u) (same : SameMap t u) (flag : Nat) (argv : List CString) :
    ((exportList t flag argv).map pair).Perm ((exportList u flag argv).map pair) := by
  have nodup : ∀ {v : HsearchData}, Inv v → ((exportList v flag argv).map pair).Nodup := by
    intro v inv
    have keys := exported_keys_nodup inv flag argv
    exact List.Nodup.of_map Prod.fst (by rw [map_map]; exact keys)
  refine (perm_ext_iff_of_nodup (nodup invT) (nodup invU)).mpr ?_
  rintro ⟨key,data⟩
  rw [mem_pairs,mem_pairs,same key data]

def pairText (sep : UInt8) (p : CString × CString) : List UInt8 := p.1.bytes ++ equalSign :: escape sep p.2.bytes ++ [sep]

theorem envText_pairs (sep : UInt8) (list : List ENTRY) : envText sep list = (list.map pair).flatMap (pairText sep) := by
  rw [flatMap_map]
  rfl

def pairLength (sep : UInt8) (p : CString × CString) : Nat :=
  p.1.length + 2 + (if sep = 0 then p.2.length else escapedLength sep p.2.bytes) + 2

theorem totlen_pairs (sep : UInt8) (list : List ENTRY) : totlen sep list = ((list.map pair).map (pairLength sep)).sum := by
  rw [map_map]
  rfl

/-- The text depends on the pairs in the order of pass 2, the room on the pairs. -/
theorem hexport_congr (sep : UInt8) (resp : Option (List UInt8))
    (size : Nat) (perm : ((exportList t flag argv).map pair).Perm ((exportList u flag argv).map pair))
    (sorted : (sortedList t flag argv).map pair = (sortedList u flag argv).map pair) :
    hexport_r t sep flag resp size argv = hexport_r u sep flag resp size argv := by
  have room : totlen sep (exportList t flag argv) = totlen sep (exportList u flag argv) := by
    rw [totlen_pairs,totlen_pairs]
    exact (perm.map _).sum_eq
  have text : exportText sep (sortedList t flag argv) = exportText sep (sortedList u flag argv) := by
    funext res
    rw [exportText_eq,exportText_eq,envText_pairs,envText_pairs,sorted]
  unfold hexport_r
  simp only [room]
  rw [show (qsort cmpkey (exportList t flag argv).toArray).toList = sortedList t flag argv from rfl,text]
  rfl

theorem written_text {sep : UInt8} {resp : Option (List UInt8)} {size : Nat}
    {res : List UInt8} {n : Nat} (exported : hexport_r t sep flag resp size argv = .done res n) :
    envText sep (sortedList t flag argv) ++ [0] <+: res := by
  unfold hexport_r at exported
  simp only at exported
  split at exported
  · cases exported
  split at exported
  · cases exported
  next res' text =>
  cases exported
  obtain ⟨buf,_,text⟩ := Option.bind_eq_some_iff.mp text
  rw [exportText_eq] at text
  split at text
  · cases text
    exact ⟨_,by rw [append_assoc]; rfl⟩
  · cases text

/-! ### The order of the keys -/

/-- `a` comes before `b`, whichever is compared with the other. -/
def Below (a b : CString) : Prop := strcmp a b < 0 ∧ 0 < strcmp b a

instance (a b : CString) : Decidable (Below a b) := inferInstanceAs (Decidable (_ ∧ _))

theorem Below.asymm {a b : CString} (below : Below a b) : ¬ Below b a := by
  rintro ⟨_,pos⟩
  have := below.1
  omega

/-- `strcmp` orders these keys. -/
structure OrderedKeys (keys : List CString) : Prop where
  comparable : ∀ a ∈ keys, ∀ b ∈ keys, a ≠ b → Below a b ∨ Below b a
  trans : ∀ a ∈ keys, ∀ b ∈ keys, ∀ c ∈ keys, Below a b → Below b c → Below a c

theorem OrderedKeys.perm {other : List CString} (ordered : OrderedKeys keys) (perm : other.Perm keys) : OrderedKeys other where
  comparable a inA b inB := ordered.comparable a (perm.mem_iff.mp inA) b (perm.mem_iff.mp inB)
  trans a inA b inB c inC := ordered.trans a (perm.mem_iff.mp inA) b (perm.mem_iff.mp inB) c (perm.mem_iff.mp inC)

theorem strcmp_self (a : CString) : strcmp a a = 0 := by
  rw [strcmp]
  induction a.bytes with
  | nil => rfl
  | cons c cs ih => rw [strcmpBytes,if_pos rfl]; exact ih

theorem OrderedKeys.le_iff (ordered : OrderedKeys keys) {a b : CString} (inA : a ∈ keys) (inB : b ∈ keys) :
    strcmp a b ≤ 0 ↔ a = b ∨ Below a b := by
  constructor
  · intro le
    by_cases same : a = b
    · exact .inl same
    rcases ordered.comparable a inA b inB same with below | ⟨_,above⟩
    · exact .inr below
    · omega
  rintro (rfl | ⟨below,_⟩)
  · rw [strcmp_self]
  · omega

/-- Where `strcmp` orders the keys, it orders the entries for the sort. -/
theorem OrderedKeys.orders {list : List ENTRY} (ordered : OrderedKeys (list.map ENTRY.key)) : Orders cmpkey list := by
  have inKeys : ∀ {ep}, ep ∈ list → ep.key ∈ list.map ENTRY.key := fun member => mem_map_of_mem member
  refine ⟨?_,?_⟩
  · intro a inA b inB positive
    rcases Int.lt_or_le 0 (cmpkey b a) with both | le
    · have different : a.key ≠ b.key := by
        intro same
        rw [cmpkey,same,strcmp_self] at positive
        omega
      rcases ordered.comparable _ (inKeys inA) _ (inKeys inB) different with ⟨neg,_⟩ | ⟨neg,_⟩
      · rw [cmpkey] at positive; omega
      · rw [cmpkey] at both; omega
    · exact le
  intro a inA b inB c inC ab bc
  refine (ordered.le_iff (inKeys inA) (inKeys inC)).mpr ?_
  rcases (ordered.le_iff (inKeys inA) (inKeys inB)).mp ab with same | ab
  · rw [same]; exact (ordered.le_iff (inKeys inB) (inKeys inC)).mp bc
  rcases (ordered.le_iff (inKeys inB) (inKeys inC)).mp bc with same | bc
  · rw [← same]; exact .inr ab
  · exact .inr (ordered.trans _ (inKeys inA) _ (inKeys inB) _ (inKeys inC) ab bc)

theorem orderedKeys_of_ascending (ascending : keys.Pairwise Below) : OrderedKeys keys := by
  rw [pairwise_iff_getElem] at ascending
  -- of two keys the lower one has the lower index
  have index : ∀ {i j : Nat} (hi : i < keys.length) (hj : j < keys.length), Below keys[i] keys[j] → i < j := by
    intro i j hi hj below
    rcases Nat.lt_trichotomy i j with lt | same | gt
    · exact lt
    · subst same; exact absurd below below.asymm
    · exact absurd (ascending j i hj hi gt) below.asymm
  refine ⟨?_,?_⟩
  · intro a inA b inB different
    obtain ⟨i,hi,rfl⟩ := mem_iff_getElem.mp inA
    obtain ⟨j,hj,rfl⟩ := mem_iff_getElem.mp inB
    rcases Nat.lt_trichotomy i j with lt | same | gt
    · exact .inl (ascending i j hi hj lt)
    · subst same; exact absurd rfl different
    · exact .inr (ascending j i hj hi gt)
  intro a inA b inB c inC ab bc
  obtain ⟨i,hi,rfl⟩ := mem_iff_getElem.mp inA
  obtain ⟨j,hj,rfl⟩ := mem_iff_getElem.mp inB
  obtain ⟨k,hk,rfl⟩ := mem_iff_getElem.mp inC
  exact ascending i k hi hk ((index hi hj ab).trans (index hj hk bc))

theorem signedChar_ascii {c d : UInt8} (lowC : c.toNat < 128) (lowD : d.toNat < 128) :
    signedChar (c-d) = (c.toNat : Int) - d.toNat := by
  rw [signedChar,UInt8.toNat_sub]
  split <;> omega

theorem strcmpBytes_ascii : ∀ {cs ds : List UInt8}, (∀ c ∈ cs, c.toNat < 128) → (∀ d ∈ ds, d.toNat < 128) → 0 ∉ cs → 0 ∉ ds →
    (strcmpBytes cs ds < 0 ↔ cs.map UInt8.toNat < ds.map UInt8.toNat) ∧
      (0 < strcmpBytes cs ds ↔ ds.map UInt8.toNat < cs.map UInt8.toNat) := by
  intro cs
  induction cs with
  | nil =>
    intro ds _ lowD _ nulFree
    cases ds with
    | nil => simp [strcmpBytes]
    | cons d ds =>
      have char : (0 : UInt8) ≠ d := fun same => nulFree (by simp [same])
      have positive : 0 < d.toNat := by
        rcases Nat.eq_zero_or_pos d.toNat with zero | pos
        · exact absurd (UInt8.toNat_inj.mp zero).symm char
        · exact pos
      have value := @signedChar_ascii 0 d (by decide) (lowD d (by simp))
      have zero : (0 : UInt8).toNat = 0 := rfl
      rw [strcmpBytes]
      simp only [map_nil,map_cons,nil_lt_cons,not_lt_nil,iff_true,iff_false]
      omega
  | cons c cs ih =>
    intro ds lowC lowD nulFreeC nulFreeD
    cases ds with
    | nil =>
      have char : (0 : UInt8) ≠ c := fun same => nulFreeC (by simp [same])
      have positive : 0 < c.toNat := by
        rcases Nat.eq_zero_or_pos c.toNat with zero | pos
        · exact absurd (UInt8.toNat_inj.mp zero).symm char
        · exact pos
      have low := lowC c (by simp)
      rw [strcmpBytes,signedChar]
      simp only [map_nil,map_cons,nil_lt_cons,not_lt_nil,iff_true,iff_false]
      omega
    | cons d ds =>
      simp only [map_cons,cons_lt_cons_iff]
      by_cases same : c = d
      · subst same
        obtain ⟨less,more⟩ := @ih ds (fun e member => lowC e (by simp [member])) (fun e member => lowD e (by simp [member]))
          (fun nul => nulFreeC (by simp [nul])) (fun nul => nulFreeD (by simp [nul]))
        rw [strcmpBytes,if_pos rfl,less,more]
        simp
      have different : c.toNat ≠ d.toNat := fun number => same (UInt8.toNat_inj.mp number)
      rw [strcmpBytes,if_neg same,signedChar_ascii (lowC c (by simp)) (lowD d (by simp))]
      omega

theorem ascii_ordered (ascii : ∀ key ∈ keys, ∀ c ∈ key.bytes, c.toNat < 128) : OrderedKeys keys := by
  have below : ∀ a ∈ keys, ∀ b ∈ keys, (Below a b ↔ a.bytes.map UInt8.toNat < b.bytes.map UInt8.toNat) := by
    intro a inA b inB
    have left := strcmpBytes_ascii (ascii a inA) (ascii b inB) a.nulFree b.nulFree
    have right := strcmpBytes_ascii (ascii b inB) (ascii a inA) b.nulFree a.nulFree
    rw [Below,strcmp,strcmp,left.1,right.2,and_self]
  refine ⟨?_,?_⟩
  · intro a inA b inB different
    rw [below a inA b inB,below b inB a inA]
    refine lt_or_gt_of_ne fun same => different (CString.ext ?_)
    exact map_injective_iff.mpr (fun _ _ => UInt8.toNat_inj.mp) same
  intro a inA b inB c inC
  rw [below a inA b inB,below b inB c inC,below a inA c inC]
  exact lt_trans

/-! ### Canonical exports -/

/-- Every table with the same contents is exported to the same bytes, and the entries
    written are in strictly ascending order of their keys. -/
structure Canonical (t : HsearchData) (sep : UInt8) (flag : Nat) (resp : Option (List UInt8)) (size : Nat)
    (argv : List CString) : Prop where
  same : ∀ u : HsearchData, Inv u → SameMap t u → hexport_r u sep flag resp size argv = hexport_r t sep flag resp size argv
  ascending : ((sortedList t flag argv).map ENTRY.key).Pairwise Below
  written : ∀ res n, hexport_r t sep flag resp size argv = .done res n → envText sep (sortedList t flag argv) ++ [0] <+: res

theorem sorted_ascending (inv : Inv t)
    (ordered : OrderedKeys ((exportList t flag argv).map ENTRY.key)) :
    ((sortedList t flag argv).map ENTRY.key).Pairwise Below := by
  have perm := (sortedList_perm t flag argv).map ENTRY.key
  have ascending : Ascending cmpkey (sortedList t flag argv) := qsort_ascending (by simpa using ordered.orders)
  have nodup : ((sortedList t flag argv).map ENTRY.key).Nodup := perm.nodup_iff.mpr (exported_keys_nodup inv flag argv)
  rw [pairwise_map]
  rw [List.Nodup,pairwise_map] at nodup
  refine (List.Pairwise.and ascending nodup).imp_of_mem ?_
  rintro a b inA inB ⟨le,different⟩
  have inKeys : ∀ {ep}, ep ∈ sortedList t flag argv → ep.key ∈ (exportList t flag argv).map ENTRY.key :=
    fun member => perm.mem_iff.mp (mem_map_of_mem member)
  exact ((ordered.le_iff (inKeys inA) (inKeys inB)).mp le).resolve_left different

theorem sortedPairs_eq (invT : Inv t) (invU : Inv u)
    (perm : ((exportList t flag argv).map pair).Perm ((exportList u flag argv).map pair))
    (ordered : OrderedKeys ((exportList t flag argv).map ENTRY.key)) :
    (sortedList t flag argv).map pair = (sortedList u flag argv).map pair := by
  have keys : ((exportList t flag argv).map ENTRY.key).Perm ((exportList u flag argv).map ENTRY.key) := by
    simpa [pair,Function.comp_def] using perm.map Prod.fst
  have orderedU : OrderedKeys ((exportList u flag argv).map ENTRY.key) := ordered.perm keys.symm
  have sortedPerm : ((sortedList t flag argv).map pair).Perm ((sortedList u flag argv).map pair) :=
    ((sortedList_perm t flag argv).map pair).trans (perm.trans ((sortedList_perm u flag argv).map pair).symm)
  have ascending : ∀ {v : HsearchData}, ((sortedList v flag argv).map ENTRY.key).Pairwise Below →
      ((sortedList v flag argv).map pair).Pairwise fun p q => Below p.1 q.1 := by
    intro v pairwise
    rw [pairwise_map] at pairwise ⊢
    exact pairwise
  exact List.Perm.eq_of_pairwise (fun p q _ _ pq qp => absurd qp pq.asymm) (ascending (sorted_ascending invT ordered))
    (ascending (sorted_ascending invU orderedU)) sortedPerm

/-- An export is canonical exactly if `strcmp` orders the keys that are exported. -/
theorem export_canonical_iff {t : HsearchData} (inv : Inv t) (sep : UInt8) (flag : Nat) (resp : Option (List UInt8))
    (size : Nat) (argv : List CString) :
    Canonical t sep flag resp size argv ↔ OrderedKeys ((exportList t flag argv).map ENTRY.key) := by
  constructor
  · intro canonical
    exact (orderedKeys_of_ascending canonical.ascending).perm ((sortedList_perm t flag argv).map ENTRY.key).symm
  intro ordered
  refine ⟨fun u invU same => ?_,sorted_ascending inv ordered,fun res n exported => written_text exported⟩
  have perm := pairs_perm inv invU same flag argv
  exact (hexport_congr sep resp size perm (sortedPairs_eq inv invU perm ordered)).symm

def setTwice : List Call := [.enter Hooks.none varB varC 0,.enter Hooks.none varA varD 0]

theorem two_names_canonical :
    ∃ t u events, hcreate_r 5 = some t ∧ Run (Guarded (fun t event => Safe t event.1) Does) t events u ∧
      found u varA = some varD ∧ found u varB = some varC ∧ Canonical u newline 0 none 0 [] := by
  have computed : ((hcreate_r 5).bind (fun t => (performAll t setTwice).map (fun r => (t,r)))).map
      (fun r : HsearchData × HsearchData × List (Call × Bool) => decide (allSafe r.1 setTwice = true ∧
        found r.2.1 varA = some varD ∧ found r.2.1 varB = some varC ∧ ∀ key ∈ (exportList r.2.1 0 []).map ENTRY.key, ∀ c ∈ key.bytes, c.toNat < 128)) = some true := by decide +kernel
  obtain ⟨⟨t,u,events⟩,done,values⟩ := Option.map_eq_some_iff.mp computed
  obtain ⟨t',made,performed⟩ := Option.bind_eq_some_iff.mp done
  obtain ⟨r,ran,same⟩ := Option.map_eq_some_iff.mp performed
  cases same
  obtain ⟨safe,valueA,valueB,ascii⟩ := of_decide_eq_true values
  have run := allSafe_run ran safe
  exact ⟨_,_,_,made,run,valueA,valueB,
    (export_canonical_iff (agrees_run made run).1 newline 0 none 0 []).mpr (ascii_ordered ascii)⟩

def nameCt : CString := ⟨[0x43,0x74],by decide⟩
def nameEa : CString := ⟨[0xc3,0xa9,0x61],by decide⟩
def valueOne : CString := ⟨[0x31],fun h => by simp at h⟩

/-- `Ct=1` and `éa=1` in UTF-8. Both names hash to slot 23 of the table made for them. -/
def ctFirst : List UInt8 := [0x43,0x74,0x3d,0x31,0,0xc3,0xa9,0x61,0x3d,0x31,0,0]

def eaFirst : List UInt8 := [0xc3,0xa9,0x61,0x3d,0x31,0,0x43,0x74,0x3d,0x31,0,0]

/-- The text's import and what it exports, with the pairs in the order of the slots. -/
def imported (text : List UInt8) : Option (Option (List (CString × CString) × Exported) × Nat) :=
  (himport_r Hooks.none none text 0 0 []).map fun r =>
    (r.1.map fun t => ((exportList t 0 []).map pair,hexport_r t newline 0 none 0 []),r.2)

theorem imported_some {text : List UInt8} {pairs : List (CString × CString)} {result : Exported}
    (is : imported text = some (some (pairs,result),1)) :
    ∃ t, himport_r Hooks.none none text 0 0 [] = some (some t,1) ∧ (exportList t 0 []).map pair = pairs ∧
      hexport_r t newline 0 none 0 [] = result := by
  obtain ⟨⟨t,ret⟩,imports,inT⟩ := Option.map_eq_some_iff.mp is
  simp only [Prod.mk.injEq] at inT
  obtain ⟨t,rfl,facts⟩ := Option.map_eq_some_iff.mp inT.1
  simp only [Prod.mk.injEq] at facts
  exact ⟨t,by rw [imports,inT.2],facts⟩

/-- The first characters of the names are 128 apart, so that each is below the other.
    Tables imported from the two texts have the same contents and are exported
    differently. -/
theorem exports_differ :
    ∃ t u, himport_r Hooks.none none ctFirst 0 0 [] = some (some t,1) ∧
      himport_r Hooks.none none eaFirst 0 0 [] = some (some u,1) ∧ SameMap t u ∧
      hexport_r t newline 0 none 0 [] ≠ hexport_r u newline 0 none 0 [] := by
  obtain ⟨t,importT,pairsT,resultT⟩ := @imported_some ctFirst [(nameCt,valueOne),(nameEa,valueOne)]
    (.done [0x43,0x74,0x3d,0x31,10,0xc3,0xa9,0x61,0x3d,0x31,10,0,0,0,0,0] 16) (by decide +kernel)
  obtain ⟨u,importU,pairsU,resultU⟩ := @imported_some eaFirst [(nameEa,valueOne),(nameCt,valueOne)]
    (.done [0xc3,0xa9,0x61,0x3d,0x31,10,0x43,0x74,0x3d,0x31,10,0,0,0,0,0] 16) (by decide +kernel)
  refine ⟨t,u,importT,importU,fun key data => ?_,by rw [resultT,resultU]; decide⟩
  have inT := @mem_pairs t 0 [] key data
  have inU := @mem_pairs u 0 [] key data
  rw [pairsT,selected_all] at inT
  rw [pairsU,selected_all] at inU
  simp only [and_true] at inT inU
  rw [← inT,← inU]
  simp [or_comm]

end UBoot.HexportCanonical
