import UBoot.NfsPath

/-!
A server for the NFS client: what it holds, which replies it may give to a call, and what the client finds
in the fields of such a reply. A server may refuse any call; a reply of success tells the truth.
-/
namespace UBoot.NfsServer
open List Nfs NfsPath

inductive Node where
  | file (bytes : List UInt8)
  | link (target : List UInt8)

/-- The directories that can be mounted, the names in a directory, and what stands behind a file handle.
    The lengths are those of the protocols. -/
structure Server where
  mount : List UInt8 → Option (List UInt8)
  lookup : List UInt8 → List UInt8 → Option (List UInt8)
  node : List UInt8 → Option Node
  mount_ok : ∀ path fh, mount path = some fh → path.length ≤ 1024 ∧ fh.length = NFS_FHSIZE
  lookup_ok : ∀ dirfh name fh, lookup dirfh name = some fh → name.length ≤ 255 ∧ fh.length = NFS_FHSIZE
  link_ok : ∀ fh target, node fh = some (.link target) → target ≠ [] ∧ 0 ∉ target ∧ target.length ≤ 1024
  file_ok : ∀ fh file, node fh = some (.file file) → file.length < 2 ^ 32

def linkPath (dir target : List UInt8) : List UInt8 := if target.head? = some 47 then target else dir ++ 47 :: target

/-- The file is found under the name, over any number of links. -/
inductive Leads (server : Server) (file : List UInt8) : List UInt8 → List UInt8 → Prop
  | file {dir name dirfh fh : List UInt8} : server.mount dir = some dirfh → server.lookup dirfh name = some fh →
      server.node fh = some (.file file) → Leads server file dir name
  | link {dir name dirfh fh target dir' name' : List UInt8} : server.mount dir = some dirfh →
      server.lookup dirfh name = some fh → server.node fh = some (.link target) →
      linkPath dir target = dir' ++ 47 :: name' → 47 ∉ name' → Leads server file dir' name' → Leads server file dir name

/-! ### Replies -/

def words (ws : List (BitVec 32)) : List UInt8 := ws.flatMap htonl

/-- The verifier of a reply; the one of `AUTH_NULL`, which is 0, has no body. -/
structure Verifier where
  flavor : BitVec 32
  body : List UInt8
  null : flavor = 0 → body = []

def Verifier.bytes (v : Verifier) : List UInt8 := htonl v.flavor ++ (htonl (BitVec.ofNat 32 v.body.length) ++ v.body)

/-- The results of a procedure, with its status in front. An error is a small number. -/
inductive Results (server : Server) : Procedure → List UInt8 → Prop
  | getport (prog ver port : BitVec 32) : Results server (.getport prog ver) (htonl port)
  | umountall : Results server .umountall []
  | mount {path fh : List UInt8} : server.mount path = some fh → Results server (.mount path) (htonl 0 ++ fh)
  | lookup {dirfh name fh attributes : List UInt8} : server.lookup dirfh name = some fh →
      Results server (.lookup dirfh name) (htonl 0 ++ (fh ++ attributes))
  | read {fh file attributes padding : List UInt8} {offset readlen count : BitVec 32} : server.node fh = some (.file file) →
      attributes.length = 68 → count.toNat ≤ readlen.toNat → offset.toNat + count.toNat ≤ file.length →
      (count = 0 → file.length ≤ offset.toNat) →
      Results server (.read fh offset readlen)
        (htonl 0 ++ (attributes ++ (htonl count ++ ((file.drop offset.toNat).take count.toNat ++ padding))))
  | readlink {fh target padding : List UInt8} : server.node fh = some (.link target) →
      Results server (.readlink fh) (htonl 0 ++ (htonl (BitVec.ofNat 32 target.length) ++ (target ++ padding)))
  | error {procedure : Procedure} {status : BitVec 32} (rest : List UInt8) : status ≠ 0 → status.toNat < 2 ^ 31 →
      (∀ prog ver, procedure ≠ .getport prog ver) → procedure ≠ .umountall → Results server procedure (htonl status ++ rest)

/-- The replies to a call: it is denied, it fails, or it has results. -/
inductive Answers (server : Server) (call : Call) : List UInt8 → Prop
  | denied (rest : List UInt8) : Answers server call (words [call.id,1,1] ++ rest)
  | failed (v : Verifier) {stat : BitVec 32} (rest : List UInt8) : stat ≠ 0 →
      Answers server call (words [call.id,1,0] ++ (v.bytes ++ (htonl stat ++ rest)))
  | success (v : Verifier) {results : List UInt8} : Results server call.procedure results →
      Answers server call (words [call.id,1,0] ++ (v.bytes ++ (htonl 0 ++ results)))

/-! ### What the client reads -/

section
variable {p : Received} {pre rest post s : List UInt8} {i : Nat} {n : BitVec 32}

theorem byte_at (data : p.data = pre ++ rest) (place : pre.length = i) {k : Nat} (inside : k < rest.length) :
    p.byte (i+k) = rest[k] := by
  subst place
  rw [Received.byte,data,getD_eq_getElem?_getD,getElem?_append_right (by omega),Nat.add_sub_cancel_left,
    getElem?_eq_getElem inside,Option.getD_some]

theorem word_at (data : p.data = pre ++ (htonl n ++ post)) (place : pre.length = i) : p.word i = n := by
  have short : 4 ≤ (htonl n ++ post).length := by simp [htonl]
  have bytes : ∀ k (inside : k < (htonl n ++ post).length), p.byte (i+k) = (htonl n ++ post)[k] :=
    fun k inside => byte_at data place inside
  have b0 := bytes 0 (by omega)
  have b1 := bytes 1 (by omega)
  have b2 := bytes 2 (by omega)
  have b3 := bytes 3 (by omega)
  simp only [htonl,cons_append,nil_append,getElem_cons_zero,getElem_cons_succ,Nat.add_zero] at b0 b1 b2 b3
  apply BitVec.eq_of_toNat_eq
  rw [Received.word,b0,b1,b2,b3,BitVec.toNat_ofNat]
  simp only [UInt8.toNat_ofNat']
  omega

theorem bytes_at (data : p.data = pre ++ (s ++ post)) (place : pre.length = i) : p.bytes i s.length = s := by
  apply ext_getElem
  · rw [bytes_length]
  intro k _ inside
  have here := @byte_at p pre (s ++ post) i data place k (by rw [length_append]; omega)
  rw [getElem_append_left inside] at here
  simpa [Received.bytes] using here

end

section
variable {server : Server} {call : Call} {p : Received} {results : List UInt8}

theorem answers_id (answers : Answers server call p.data) : p.word 0 = call.id := by
  generalize equal : p.data = data at answers
  cases answers with
  | denied rest => exact @word_at p [] (words [1,1] ++ rest) 0 call.id equal rfl
  | failed v rest _ => exact @word_at p [] _ 0 call.id equal rfl
  | success v _ => exact @word_at p [] _ 0 call.id equal rfl

theorem answers_accepted (answers : Answers server call p.data) (accepted : p.word 8 = 0) (null : p.word 12 = 0) :
    p.word 20 ≠ 0 ∨ ∃ results, Results server call.procedure results ∧ p.data = words [call.id,1,0,0,0,0] ++ results := by
  -- Without a body the status is where the client looks for it.
  have unverified : ∀ (v : Verifier) (n : BitVec 32) (rest : List UInt8),
      p.data = words [call.id,1,0] ++ (v.bytes ++ (htonl n ++ rest)) → p.data = words [call.id,1,0,0,0] ++ (htonl n ++ rest) := by
    intro v n rest equal
    have flavor : v.flavor = 0 := by
      rw [← null]
      refine (@word_at p (words [call.id,1,0]) (htonl (BitVec.ofNat 32 v.body.length) ++ v.body ++ (htonl n ++ rest)) 12
        v.flavor ?_ rfl).symm
      rw [equal,Verifier.bytes,append_assoc]
    rw [equal,Verifier.bytes,flavor,v.null flavor]
    rfl
  generalize equal : p.data = data at answers
  cases answers with
  | denied rest =>
    have one := @word_at p (words [call.id,1]) rest 8 1 equal rfl
    rw [accepted] at one
    exact absurd one (by decide)
  | failed v rest set =>
    refine .inl ?_
    rw [@word_at p (words [call.id,1,0,0,0]) rest 20 _ (unverified v _ rest equal) rfl]
    exact set
  | success v found => exact .inr ⟨_,found,by rw [← equal]; exact unverified v 0 _ equal⟩

variable {id : BitVec 32} (data : p.data = words [id,1,0,0,0,0] ++ results)
include data

theorem status_at {status : BitVec 32} {rest : List UInt8} (equal : results = htonl status ++ rest) : p.word 24 = status :=
  @word_at p (words [id,1,0,0,0,0]) rest 24 status (by rw [data,equal]) rfl

theorem mount_results {path : List UInt8} (found : Results server (.mount path) results) (zero : p.word 24 = 0) :
    server.mount path = some (p.bytes 28 NFS_FHSIZE) := by
  generalize equal : results = r at found
  cases found with
  | mount mounted =>
    rename_i fh
    have handle := @bytes_at p (words [id,1,0,0,0,0,0]) [] fh 28 (by rw [data,equal,append_nil]; rfl) rfl
    rw [(server.mount_ok _ _ mounted).2] at handle
    rw [handle,mounted]
  | error rest set => exact absurd ((status_at data equal).symm.trans zero) set

theorem lookup_results {dirfh name : List UInt8} (found : Results server (.lookup dirfh name) results) (zero : p.word 24 = 0) :
    server.lookup dirfh name = some (p.bytes 28 NFS_FHSIZE) := by
  generalize equal : results = r at found
  cases found with
  | lookup known =>
    rename_i fh attributes
    have handle := @bytes_at p (words [id,1,0,0,0,0,0]) attributes fh 28 (by rw [data,equal]; rfl) rfl
    rw [(server.lookup_ok _ _ _ known).2] at handle
    rw [handle,known]
  | error rest set => exact absurd ((status_at data equal).symm.trans zero) set

theorem readlink_results {fh : List UInt8} (found : Results server (.readlink fh) results) (zero : p.word 24 = 0) :
    ∃ target, server.node fh = some (.link target) ∧ (p.word 28).toNat = target.length ∧
      p.bytes 32 target.length = target ∧ (p.byte 32 = 47 ↔ target.head? = some 47) := by
  generalize equal : results = r at found
  cases found with
  | readlink linked =>
    rename_i target padding
    obtain ⟨some_,-,short⟩ := server.link_ok _ _ linked
    have length := @word_at p (words [id,1,0,0,0,0,0]) (target ++ padding) 28 _ (by rw [data,equal]; rfl) rfl
    have placed : p.data = words [id,1,0,0,0,0,0,BitVec.ofNat 32 target.length] ++ (target ++ padding) := by
      rw [data,equal]
      rfl
    refine ⟨target,linked,?_,bytes_at placed rfl,?_⟩
    · rw [length,BitVec.toNat_ofNat]
      omega
    obtain ⟨c,tail,rfl⟩ := exists_cons_of_ne_nil some_
    have first := @byte_at p _ _ 32 placed rfl 0 (by simp)
    rw [first]
    simp
  | error rest set => exact absurd ((status_at data equal).symm.trans zero) set

theorem read_results {fh : List UInt8} {offset readlen : BitVec 32} (found : Results server (.read fh offset readlen) results)
    (zero : p.word 24 = 0) :
    ∃ file, server.node fh = some (.file file) ∧ (p.word 96).toNat ≤ readlen.toNat ∧
      offset.toNat + (p.word 96).toNat ≤ file.length ∧ (p.word 96 = 0 → file.length ≤ offset.toNat) ∧
      p.bytes 100 (p.word 96).toNat = (file.drop offset.toNat).take (p.word 96).toNat := by
  generalize equal : results = r at found
  cases found with
  | read regular attributes short inside ended =>
    rename_i file attr padding count
    have place : (words [id,1,0,0,0,0,0] ++ attr).length = 96 := by
      rw [length_append,attributes]
      rfl
    have counted := @word_at p (words [id,1,0,0,0,0,0] ++ attr) ((file.drop offset.toNat).take count.toNat ++ padding) 96 count
      (by rw [data,equal]; simp [words]) place
    have stored := @bytes_at p (words [id,1,0,0,0,0,0] ++ attr ++ htonl count) padding ((file.drop offset.toNat).take count.toNat) 100
      (by rw [data,equal]; simp [words]) (by rw [length_append,place]; rfl)
    have length : ((file.drop offset.toNat).take count.toNat).length = count.toNat := by
      rw [length_take,length_drop]
      omega
    rw [length] at stored
    rw [counted]
    exact ⟨file,regular,short,inside,ended,stored⟩
  | error rest set => exact absurd ((status_at data equal).symm.trans zero) set

theorem read_error {fh : List UInt8} {offset readlen : BitVec 32} (found : Results server (.read fh offset readlen) results)
    (set : p.word 24 ≠ 0) : (p.word 24).toNat < 2 ^ 31 := by
  generalize equal : results = r at found
  cases found with
  | read regular attributes short inside ended => exact absurd (status_at data equal) set
  | error rest nonzero small =>
    rw [status_at data equal]
    exact small

end

end UBoot.NfsServer
