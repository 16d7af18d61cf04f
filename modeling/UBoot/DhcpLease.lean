import UBoot.BootpSafe
import UBoot.Runs

/-!
Runs of the DHCP client between any packets, timeouts and restarts. If every packet that is accepted while the client
waits for an offer is an offer without padding in its options that names its server, and every packet accepted later
has no padding either, then requests answer offers and addresses come from acknowledgements (`lease_follows_offer`).
-/
namespace UBoot.DhcpLease
open List Option Buffers CStrings Bootp BootpSafe Runs

variable {cfg : Config} {net net' : Net} {bp after more area : List UInt8} {p : Packet} {fuel : Nat} {items : List Item}
  {server : Quad}

/-! ### Messages -/

structure Opt where
  code : UInt8
  value : List UInt8
  plain : code ≠ 0 ∧ code ≠ 255
  short : value.length < 256

def Opt.encode (o : Opt) : List UInt8 := o.code :: UInt8.ofNat o.value.length :: o.value

/-- Options may have single zero bytes between them. -/
inductive Item
  | pad
  | opt (o : Opt)

def Item.encode : Item → List UInt8
  | .pad => [0]
  | .opt o => o.encode

def valueOf (code : UInt8) (items : List Item) : Option (List UInt8) :=
  items.findSome? fun
    | .pad => none
    | .opt o => if o.code = code then some o.value else none

def Lists (area : List UInt8) (items : List Item) : Prop :=
  ∃ more : List UInt8, area = BOOTP_VENDOR_MAGIC.bytes ++ (items.flatMap Item.encode ++ 255 :: more)

def DHCP_OFFER : UInt8 := 2

def OfType (payload : List UInt8) (type : UInt8) : Prop :=
  ∃ items, Lists (payload.drop bp_vend) items ∧ valueOf 53 items = some [type]

def ServerIs (payload : List UInt8) (server : Quad) : Prop :=
  ∃ items, Lists (payload.drop bp_vend) items ∧ valueOf 54 items = some server.bytes

def Asks (request : Request) (server address : Quad) : Prop :=
  ∃ items, Lists request.options items ∧ valueOf 53 items = some [DHCP_REQUEST] ∧ valueOf 54 items = some server.bytes ∧
    valueOf 50 items = some address.bytes

/-! ### Steps -/

/-- A packet as it is received: the sender's address, the memory from the payload on, and the length of the payload. -/
structure Packet where
  et_src : List UInt8
  memory : List UInt8
  dest : Nat
  src : Nat
  len : Nat

def Packet.payload (p : Packet) : List UInt8 := p.memory.take p.len

inductive Event
  | start (BootpID : Quad)
  | timeout (BootpID : Quad)
  | packet (p : Packet)

/-- What an event does. A packet that makes the client read outside of the memory has no result. -/
def perform (cfg : Config) (net : Net) : Event → Option (Net × Option Request)
  | .start id => some (startDhcp id net,none)
  | .timeout id => some (BootpTimeout id net,none)
  | .packet p => DhcpHandler cfg p.et_src p.memory p.dest p.src p.len net

def Step (cfg : Config) (net : Net) (e : Event) (after : Net) : Prop := ∃ sent, perform cfg net e = some (after,sent)

def Accepted (net : Net) (p : Packet) : Prop := BootpCheckPkt p.memory p.dest p.src p.len net.BootpID = some 0

/-- A message without padding, in which a message type has one byte. -/
def PlainMessage (payload : List UInt8) (options : List Opt) : Prop :=
  Lists (payload.drop bp_vend) (options.map .opt) ∧ ∀ o ∈ options, o.code = 53 → o.value.length = 1

/-- An offer without padding that offers an address and names its server once, near enough to the beginning. -/
def PlainOffer (payload : List UInt8) : Prop :=
  ∃ (pre post : List Opt) (s : Opt) (server address : Quad), PlainMessage payload (pre ++ s :: post) ∧
    valueOf 53 ((pre ++ s :: post).map .opt) = some [DHCP_OFFER] ∧ s.code = 54 ∧ s.value = server.bytes ∧ server ≠ zeroQuad ∧
    (∀ o ∈ pre ++ post, o.code ≠ 54) ∧ (pre.flatMap Opt.encode).length < BOOTP_HDR_SIZE ∧
    readQuad (payload.drop bp_yiaddr) = some address ∧ address ≠ zeroQuad

/-- What is assumed about the packets: offers where offers are expected, and messages without padding later on. -/
def Proper (net : Net) : Event → Prop
  | .packet p => Accepted net p →
      (net.dhcp_state = .SELECTING → PlainOffer p.payload) ∧
      (net.dhcp_state = .REQUESTING → readQuad (p.memory.drop bp_vend) = some BOOTP_VENDOR_MAGIC →
        ∃ options, PlainMessage p.payload options)
  | _ => True

/-! ### What a step keeps -/

theorem copyOptFile_keeps {value : List UInt8} {oplen : Nat} (done : copyOptFile value oplen bp = some after) :
    after.take bp_file = bp.take bp_file := by
  obtain ⟨first,read,rest⟩ := bind_eq_some_iff.mp done
  split at rest
  · obtain ⟨name,_,stored⟩ := bind_eq_some_iff.mp rest
    rw [storeAll] at stored
    split at stored
    case isTrue room =>
      cases stored
      rw [append_assoc,take_append_of_le_length (by rw [length_take]; omega),take_take,Nat.min_self]
    case isFalse => cases stored
  · cases rest
    rfl

/-- What the options leave alone: the beginning of the packet, the id and the state. -/
structure Keeps (bp after : List UInt8) (net net' : Net) : Prop where
  front : after.take bp_file = bp.take bp_file
  id : net'.BootpID = net.BootpID
  state : net'.dhcp_state = net.dhcp_state

theorem Keeps.refl (bp : List UInt8) (net : Net) : Keeps bp bp net net := ⟨rfl,rfl,rfl⟩

theorem Keeps.trans {a b c : List UInt8} {x y z : Net} (first : Keeps a b x y) (second : Keeps b c y z) : Keeps a c x z :=
  ⟨second.front.trans first.front,second.id.trans first.id,second.state.trans first.state⟩

theorem keeps_of_bind {α : Type} {x : Option α} {f : α → Net} {code : UInt8} {bp after value : List UInt8} {net net' : Net}
    (done : (x >>= fun a => some (bp,f a)) = some (after,net')) (other : code ≠ 54)
    (same : ∀ a, (f a).BootpID = net.BootpID ∧ (f a).dhcp_state = net.dhcp_state ∧ (f a).NetDHCPServerIP = net.NetDHCPServerIP) :
    Keeps bp after net net' ∧ (code ≠ 54 → net'.NetDHCPServerIP = net.NetDHCPServerIP) ∧
      (code = 54 → readQuad value = some net'.NetDHCPServerIP) := by
  obtain ⟨a,_,result⟩ := bind_eq_some_iff.mp done
  cases result
  exact ⟨⟨rfl,(same a).1,(same a).2.1⟩,fun _ => (same a).2.2,fun server => absurd server other⟩

theorem dhcpOption_keeps {code : UInt8} {oplen : Nat} {value : List UInt8}
    (done : dhcpOption cfg code oplen value bp net = some (after,net')) :
    Keeps bp after net net' ∧ (code ≠ 54 → net'.NetDHCPServerIP = net.NetDHCPServerIP) ∧
      (code = 54 → readQuad value = some net'.NetDHCPServerIP) := by
  have ignored : ∀ {code : UInt8}, code ≠ 54 → some (bp,net) = some (after,net') →
      Keeps bp after net net' ∧ (code ≠ 54 → net'.NetDHCPServerIP = net.NetDHCPServerIP) ∧
        (code = 54 → readQuad value = some net'.NetDHCPServerIP) := fun other same =>
    @keeps_of_bind Unit (some ()) (fun _ => net) _ bp after value net net' same other fun _ => ⟨rfl,rfl,rfl⟩
  unfold dhcpOption at done
  split at done
  · exact keeps_of_bind done (by decide) fun _ => ⟨rfl,rfl,rfl⟩
  · split at done
    · exact keeps_of_bind done (by decide) fun _ => ⟨rfl,rfl,rfl⟩
    · exact ignored (by decide) done
  · exact keeps_of_bind done (by decide) fun _ => ⟨rfl,rfl,rfl⟩
  · obtain ⟨dns,_,rest⟩ := bind_eq_some_iff.mp done
    exact keeps_of_bind rest (by decide) fun _ => ⟨rfl,rfl,rfl⟩
  · exact keeps_of_bind done (by decide) fun _ => ⟨rfl,rfl,rfl⟩
  · exact keeps_of_bind done (by decide) fun _ => ⟨rfl,rfl,rfl⟩
  · split at done
    · exact keeps_of_bind done (by decide) fun _ => ⟨rfl,rfl,rfl⟩
    · exact ignored (by decide) done
  · exact keeps_of_bind done (by decide) fun _ => ⟨rfl,rfl,rfl⟩
  · obtain ⟨server,read,result⟩ := bind_eq_some_iff.mp done
    cases result
    exact ⟨⟨rfl,rfl,rfl⟩,fun other => absurd rfl other,fun _ => read⟩
  · obtain ⟨copied,read,result⟩ := bind_eq_some_iff.mp done
    cases result
    exact ⟨⟨copyOptFile_keeps read,rfl,rfl⟩,fun _ => rfl,fun server => absurd server (by decide)⟩
  · exact ignored (by assumption) done

theorem optionsLoop_next {left : Nat} {o : Opt} {rest : List UInt8} (inside : 0 < left)
    (done : optionsLoop cfg (fuel+1) left (o.encode ++ rest) bp net = some (after,net')) :
    ∃ bp' net₁, dhcpOption cfg o.code o.value.length (o.value ++ rest) bp net = some (bp',net₁) ∧
      optionsLoop cfg fuel (left-o.encode.length) rest bp' net₁ = some (after,net') := by
  have size : (UInt8.ofNat o.value.length).toNat = o.value.length := Nat.mod_eq_of_lt o.short
  unfold optionsLoop at done
  rw [if_neg (Nat.ne_of_gt inside)] at done
  simp only [Opt.encode,cons_append,if_neg o.plain.2,size] at done
  obtain ⟨⟨bp',net₁⟩,first,later⟩ := bind_eq_some_iff.mp done
  refine ⟨bp',net₁,first,?_⟩
  rw [drop_left] at later
  exact later

theorem optionsLoop_past {popt : List UInt8}
    (done : optionsLoop cfg (fuel+1) 0 popt bp net = some (after,net')) : bp = after ∧ net = net' := by
  cases done
  exact ⟨rfl,rfl⟩

theorem optionsLoop_last {left : Nat}
    (done : optionsLoop cfg (fuel+1) left (255 :: more) bp net = some (after,net')) : bp = after ∧ net = net' := by
  unfold optionsLoop at done
  split at done
  · cases done
    exact ⟨rfl,rfl⟩
  · cases done
    exact ⟨rfl,rfl⟩

/-- Whatever the options are, they keep the id, the state and the beginning of the packet. -/
theorem optionsLoop_keeps : ∀ {fuel left : Nat} {popt bp after : List UInt8} {net net' : Net},
    optionsLoop cfg fuel left popt bp net = some (after,net') → Keeps bp after net net' := by
  intro fuel
  induction fuel with
  | zero => intro _ _ _ _ _ _ done; cases done
  | succ fuel ih =>
    intro left popt bp after net net' done
    unfold optionsLoop at done
    split at done
    · cases done
      exact .refl _ _
    split at done
    · cases done
    split at done
    · cases done
      exact .refl _ _
    split at done
    · cases done
    · obtain ⟨⟨bp',net₁⟩,first,later⟩ := bind_eq_some_iff.mp done
      exact (dhcpOption_keeps first).1.trans (ih later)

theorem optionsLoop_others : ∀ {options : List Opt} {fuel left : Nat} {bp after : List UInt8} {net net' : Net},
    (∀ o ∈ options, o.code ≠ 54) → optionsLoop cfg fuel left (options.flatMap Opt.encode ++ 255 :: more) bp net = some (after,net') →
    net'.NetDHCPServerIP = net.NetDHCPServerIP := by
  intro options
  induction options with
  | nil =>
    intro fuel left bp after net net' _ done
    cases fuel with
    | zero => cases done
    | succ fuel =>
      obtain ⟨_,rfl⟩ := optionsLoop_last done
      rfl
  | cons o options ih =>
    intro fuel left bp after net net' others done
    cases fuel with
    | zero => cases done
    | succ fuel =>
      rcases Nat.eq_zero_or_pos left with rfl | inside
      · obtain ⟨_,rfl⟩ := optionsLoop_past done
        rfl
      rw [flatMap_cons,append_assoc] at done
      obtain ⟨bp',net₁,first,later⟩ := optionsLoop_next inside done
      have kept := (dhcpOption_keeps first).2.1 (others o mem_cons_self)
      rw [ih (fun o member => others o (mem_cons_of_mem _ member)) later,kept]

theorem optionsLoop_server {post : List Opt} {s : Opt} (code : s.code = 54)
    (value : s.value = server.bytes) (others : ∀ o ∈ post, o.code ≠ 54) :
    ∀ {pre : List Opt} {fuel left : Nat} {bp after : List UInt8} {net net' : Net}, (pre.flatMap Opt.encode).length < left →
    optionsLoop cfg fuel left ((pre ++ s :: post).flatMap Opt.encode ++ 255 :: more) bp net = some (after,net') →
    net'.NetDHCPServerIP = server := by
  intro pre
  induction pre with
  | nil =>
    intro fuel left bp after net net' room done
    cases fuel with
    | zero => cases done
    | succ fuel =>
      rw [nil_append,flatMap_cons,append_assoc] at done
      obtain ⟨bp',net₁,first,later⟩ := optionsLoop_next room done
      have read := (dhcpOption_keeps first).2.2 code
      rw [value] at read
      rw [optionsLoop_others others later]
      exact (Option.some.inj read).symm
  | cons o pre ih =>
    intro fuel left bp after net net' room done
    cases fuel with
    | zero => cases done
    | succ fuel =>
      rw [flatMap_cons,length_append] at room
      rw [cons_append,flatMap_cons,append_assoc] at done
      obtain ⟨bp',net₁,_,later⟩ := optionsLoop_next (by omega) done
      exact ih (by omega) later

/-! ### Reading a payload -/

theorem readQuad_take {n : Nat} (four : 4 ≤ n) : readQuad (area.take n) = readQuad area := by
  obtain ⟨n,rfl⟩ := Nat.exists_eq_add_of_le' four
  rcases area with _ | ⟨a,_ | ⟨b,_ | ⟨c,_ | ⟨d,rest⟩⟩⟩⟩ <;> rfl

theorem readQuad_inside {n k : Nat} (inside : k + 4 ≤ n) :
    readQuad ((area.take n).drop k) = readQuad (area.drop k) := by
  rw [drop_take]
  exact readQuad_take (by omega)

theorem Keeps.readQuad (keeps : Keeps bp after net net') {k : Nat} (inside : k + 4 ≤ bp_file) :
    Bootp.readQuad (after.drop k) = Bootp.readQuad (bp.drop k) := by
  rw [← readQuad_inside inside,keeps.front,readQuad_inside inside]

theorem Accepted.id (accepted : Accepted net p) : readQuad (p.memory.drop bp_id) = some net.BootpID := by
  rw [Accepted,BootpCheckPkt] at accepted
  split at accepted
  · cases accepted
  split at accepted
  · cases accepted
  obtain ⟨op,_,accepted⟩ := bind_eq_some_iff.mp accepted
  obtain ⟨htype,_,accepted⟩ := bind_eq_some_iff.mp accepted
  obtain ⟨hlen,_,accepted⟩ := bind_eq_some_iff.mp accepted
  obtain ⟨id,read,accepted⟩ := bind_eq_some_iff.mp accepted
  by_cases same : id = net.BootpID
  · rw [read,same]
  · repeat' split at accepted
    all_goals cases accepted

theorem Accepted.payload_id (accepted : Accepted net p) :
    readQuad (p.payload.drop bp_id) = some net.BootpID := by
  rw [Packet.payload,readQuad_inside (Nat.le_trans (by decide) (accepted_length accepted))]
  exact accepted.id

theorem Lists.memory (lists : Lists (p.payload.drop bp_vend) items) :
    Lists (p.memory.drop bp_vend) items := by
  obtain ⟨more,same⟩ := lists
  have long : bp_vend ≤ p.payload.length := by
    have some_ : 0 < (p.payload.drop bp_vend).length := by
      rw [same]
      exact Nat.succ_pos _
    rw [length_drop] at some_
    omega
  refine ⟨more ++ p.memory.drop p.len,?_⟩
  conv_lhs => rw [← take_append_drop p.len p.memory]
  show (p.payload ++ _).drop bp_vend = _
  rw [drop_append_of_le_length long,same]
  simp only [append_assoc,cons_append]

theorem Lists.magic (lists : Lists area items) : readQuad area = some BOOTP_VENDOR_MAGIC := by
  obtain ⟨more,rfl⟩ := lists
  rfl

theorem encode_plain (options : List Opt) : (options.map Item.opt).flatMap Item.encode = options.flatMap Opt.encode :=
  flatMap_map _ _ _

theorem Lists.options {memory : List UInt8} {options : List Opt} (lists : Lists (memory.drop bp_vend) (options.map .opt)) :
    ∃ more, memory.drop (bp_vend+4) = options.flatMap Opt.encode ++ 255 :: more := by
  obtain ⟨more,same⟩ := lists
  refine ⟨more,?_⟩
  rw [← drop_drop,same,encode_plain]
  rfl

theorem processOptions_keeps (done : processOptions cfg bp net = some (after,net')) :
    Keeps bp after net net' := by
  obtain ⟨magic,_,rest⟩ := bind_eq_some_iff.mp done
  split at rest
  · exact optionsLoop_keeps rest
  · cases rest
    exact .refl _ _

theorem processOptions_server {pre post : List Opt} {s : Opt}
    (lists : Lists (bp.drop bp_vend) ((pre ++ s :: post).map .opt)) (code : s.code = 54) (value : s.value = server.bytes)
    (others : ∀ o ∈ post, o.code ≠ 54) (room : (pre.flatMap Opt.encode).length < BOOTP_HDR_SIZE)
    (done : processOptions cfg bp net = some (after,net')) : net'.NetDHCPServerIP = server := by
  rw [processOptions,lists.magic] at done
  obtain ⟨more,area⟩ := lists.options
  rw [area] at done
  exact optionsLoop_server code value others room done

theorem typeLoop_plain {type : UInt8} : ∀ {options : List Opt} {fuel : Nat}, (∀ o ∈ options, o.code = 53 → o.value.length = 1) →
    typeLoop fuel (options.flatMap Opt.encode ++ 255 :: more) = some (type.toNat : Int) → valueOf 53 (options.map .opt) = some [type] := by
  intro options
  induction options with
  | nil =>
    intro fuel _ found
    cases fuel with
    | zero => cases found
    | succ fuel =>
      have wrong : (-1 : Int) = type.toNat := Option.some.inj found
      omega
  | cons o options ih =>
    intro fuel single found
    cases fuel with
    | zero => cases found
    | succ fuel =>
      have size : (UInt8.ofNat o.value.length).toNat = o.value.length := Nat.mod_eq_of_lt o.short
      unfold typeLoop at found
      simp only [flatMap_cons,Opt.encode,cons_append,append_assoc,if_neg o.plain.2,size,drop_left] at found
      rw [map_cons,valueOf,findSome?_cons]
      by_cases is : o.code = 53
      · obtain ⟨b,value⟩ := length_eq_one_iff.mp (single o mem_cons_self is)
        rw [if_pos is,value] at found
        have same : (b.toNat : Int) = type.toNat := Option.some.inj found
        have same : b = type := UInt8.toNat_inj.mp (by omega)
        simp only [if_pos is,value,same]
      rw [if_neg is] at found
      simp only [if_neg is]
      exact ih (fun o member => single o (mem_cons_of_mem _ member)) found

/-! ### What a step does -/

inductive Outcome (cfg : Config) (net : Net) : Event → Net → Option Request → Prop
  | again {e : Event} {after : Net} : after.dhcp_state = .SELECTING → Outcome cfg net e after none
  | same {e : Event} : Outcome cfg net e net none
  | requested {p : Packet} {after : Net} {request : Request} (bp : List UInt8) : Accepted net p → net.dhcp_state = .SELECTING →
      processOptions cfg p.memory { net with dhcp_state := .REQUESTING } = some (bp,after) → DhcpSendRequestPkt bp after = some request →
      Outcome cfg net (.packet p) after (some request)
  | bound {p : Packet} (bp : List UInt8) (net₁ net₂ : Net) : Accepted net p → net.dhcp_state = .REQUESTING →
      DhcpMessageType (p.memory.drop bp_vend) = some DHCP_ACK → processOptions cfg p.memory net = some (bp,net₁) →
      BootpCopyNetParams cfg p.et_src bp net₁ = some net₂ → Outcome cfg net (.packet p) { net₂ with dhcp_state := .BOUND } none

theorem perform_outcome {after : Net} {e : Event} {sent : Option Request} (done : perform cfg net e = some (after,sent)) :
    Outcome cfg net e after sent := by
  cases e with
  | start id =>
    cases done
    exact .again rfl
  | timeout id =>
    rw [perform,BootpTimeout] at done
    split at done
    · cases done
      exact .same
    · cases done
      exact .again rfl
  | packet p =>
    obtain ⟨check,checked,rest⟩ := bind_eq_some_iff.mp done
    by_cases accepted : check = 0
    · rw [accepted] at checked
      rw [if_neg fun other => other accepted] at rest
      split at rest
      case h_1 selecting =>
        obtain ⟨⟨bp,net'⟩,processed,rest⟩ := bind_eq_some_iff.mp rest
        obtain ⟨request,sends,rest⟩ := bind_eq_some_iff.mp rest
        cases rest
        exact .requested bp checked selecting processed sends
      case h_2 requesting =>
        obtain ⟨type,found,rest⟩ := bind_eq_some_iff.mp rest
        split at rest
        case isTrue ack =>
          obtain ⟨⟨bp,net₁⟩,processed,rest⟩ := bind_eq_some_iff.mp rest
          obtain ⟨net₂,copied,rest⟩ := bind_eq_some_iff.mp rest
          cases rest
          exact .bound bp net₁ net₂ checked requesting (ack ▸ found) processed copied
        case isFalse =>
          cases rest
          exact .same
      case h_3 =>
        cases rest
        exact .same
    rw [if_pos accepted] at rest
    cases rest
    exact .same

theorem extended_asks {address : Quad} (id : Quad) (serverKnown : server ≠ zeroQuad) (addressKnown : address ≠ zeroQuad) :
    Asks ⟨id,DhcpExtended DHCP_REQUEST server address⟩ server address := by
  obtain ⟨s₁,s₂,s₃,s₄⟩ := server
  obtain ⟨a₁,a₂,a₃,a₄⟩ := address
  refine ⟨[.opt ⟨53,[DHCP_REQUEST],by decide,by decide⟩,.opt ⟨57,[2,64],by decide,by decide⟩,
    .opt ⟨54,[s₁,s₂,s₃,s₄],by decide,Nat.lt_of_sub_eq_succ rfl⟩,.opt ⟨50,[a₁,a₂,a₃,a₄],by decide,Nat.lt_of_sub_eq_succ rfl⟩],
    ⟨List.replicate 40 0,?_⟩,rfl,rfl,rfl⟩
  rw [DhcpExtended,if_pos serverKnown,if_pos addressKnown]
  rfl

theorem request_answers {after : Net} {request : Request} (accepted : Accepted net p)
    (offer : PlainOffer p.payload) (processed : processOptions cfg p.memory { net with dhcp_state := .REQUESTING } = some (bp,after))
    (sends : DhcpSendRequestPkt bp after = some request) :
    OfType p.payload DHCP_OFFER ∧ ∃ server address, ServerIs p.payload server ∧ readQuad (p.payload.drop bp_yiaddr) = some address ∧
      request.id = net.BootpID ∧ Asks request server address := by
  obtain ⟨pre,post,s,server,address,⟨lists,single⟩,type,code,value,known,others,room,yiaddr,nonzero⟩ := offer
  have keeps := processOptions_keeps processed
  have named := processOptions_server lists.memory code value (fun o member => others o (mem_append_right _ member)) room processed
  obtain ⟨id,readId,rest⟩ := bind_eq_some_iff.mp sends
  obtain ⟨OfferedIP,readIp,rest⟩ := bind_eq_some_iff.mp rest
  cases rest
  rw [keeps.readQuad (by decide),accepted.id] at readId
  have long : bp_yiaddr + 4 ≤ p.len := Nat.le_trans (by decide) (accepted_length accepted)
  rw [keeps.readQuad (by decide),← readQuad_inside long] at readIp
  cases readId
  cases yiaddr.symm.trans readIp
  refine ⟨⟨_,lists,type⟩,server,address,⟨_,lists,?_⟩,yiaddr,rfl,?_⟩
  · rw [map_append,valueOf,findSome?_append,findSome?_eq_none_iff.mpr,none_or,map_cons,findSome?_cons]
    · simp only [if_pos code,value]
    intro item member
    obtain ⟨o,before,rfl⟩ := mem_map.mp member
    exact if_neg (others o (mem_append_left _ before))
  · rw [named]
    exact extended_asks net.BootpID known nonzero

theorem bound_acknowledged {net₁ net₂ : Net} (accepted : Accepted net p)
    (plain : readQuad (p.memory.drop bp_vend) = some BOOTP_VENDOR_MAGIC → ∃ options, PlainMessage p.payload options)
    (found : DhcpMessageType (p.memory.drop bp_vend) = some DHCP_ACK) (processed : processOptions cfg p.memory net = some (bp,net₁))
    (copied : BootpCopyNetParams cfg p.et_src bp net₁ = some net₂) :
    OfType p.payload 5 ∧ net₂.BootpID = net.BootpID ∧ readQuad (p.payload.drop bp_yiaddr) = some net₂.NetOurIP := by
  have keeps := processOptions_keeps processed
  refine ⟨?_,?_,?_⟩
  · obtain ⟨magic,read,rest⟩ := bind_eq_some_iff.mp found
    by_cases same : magic = BOOTP_VENDOR_MAGIC
    · obtain ⟨options,lists,single⟩ := plain (same ▸ read)
      rw [if_neg fun other => other same,drop_drop] at rest
      obtain ⟨more,area⟩ := lists.memory.options
      rw [area] at rest
      exact ⟨_,lists,typeLoop_plain single rest⟩
    · rw [if_pos same] at rest
      cases rest
  · obtain ⟨siaddr,_,copied⟩ := bind_eq_some_iff.mp copied
    obtain ⟨yiaddr,_,copied⟩ := bind_eq_some_iff.mp copied
    obtain ⟨file,_,copied⟩ := bind_eq_some_iff.mp copied
    cases copied
    exact keeps.id
  obtain ⟨siaddr,_,copied⟩ := bind_eq_some_iff.mp copied
  obtain ⟨yiaddr,read,copied⟩ := bind_eq_some_iff.mp copied
  obtain ⟨file,_,copied⟩ := bind_eq_some_iff.mp copied
  cases copied
  have long : bp_yiaddr + 4 ≤ p.len := Nat.le_trans (by decide) (accepted_length accepted)
  rw [Packet.payload,readQuad_inside long,← keeps.readQuad (by decide)]
  exact read

/-! ### Runs -/

/-- An offer with the current id was answered by a request, earlier in the run. -/
def Offered (cfg : Config) (start : Net) (events : List Event) (net : Net) : Prop :=
  ∃ before offer later mid after request, events = before ++ .packet offer :: later ∧ Run (Step cfg) start before mid ∧
    OfType offer.payload DHCP_OFFER ∧ readQuad (offer.payload.drop bp_id) = some net.BootpID ∧
    perform cfg mid (.packet offer) = some (after,some request)

theorem Offered.next {cfg : Config} {start net after : Net} {events : List Event} (offered : Offered cfg start events net)
    (same : after.BootpID = net.BootpID) (e : Event) : Offered cfg start (events ++ [e]) after := by
  obtain ⟨before,offer,later,mid,reached,request,rfl,run,type,id,done⟩ := offered
  refine ⟨before,offer,later ++ [e],mid,reached,request,?_,run,type,same ▸ id,done⟩
  rw [append_assoc,cons_append]

theorem waiting_offered {start : Net} {events : List Event} (initial : start.dhcp_state = .INIT)
    (run : Run (Guarded Proper (Step cfg)) start events net) :
    Run (Step cfg) start events net ∧ (net.dhcp_state = .REQUESTING ∨ net.dhcp_state = .BOUND → Offered cfg start events net) := by
  refine run.relates (R := fun events net => Run (Step cfg) start events net ∧
    (net.dhcp_state = .REQUESTING ∨ net.dhcp_state = .BOUND → Offered cfg start events net)) ⟨.start,fun waiting => ?_⟩ ?_
  · rw [initial] at waiting
    rcases waiting with wrong | wrong <;> cases wrong
  rintro events net e after ⟨run,offered⟩ ⟨proper,sent,done⟩
  refine ⟨run.next ⟨sent,done⟩,fun waiting => ?_⟩
  cases perform_outcome done with
  | again selecting =>
    rw [selecting] at waiting
    rcases waiting with wrong | wrong <;> cases wrong
  | same => exact (offered waiting).next rfl e
  | requested bp accepted selecting processed sends =>
    have answers := request_answers accepted ((proper accepted).1 selecting) processed sends
    refine ⟨events,_,[],net,after,_,rfl,run,answers.1,?_,done⟩
    rw [accepted.payload_id,(processOptions_keeps processed).id]
  | bound bp net₁ net₂ accepted requesting found processed copied =>
    have acknowledged := bound_acknowledged accepted ((proper accepted).2 requesting) found processed copied
    exact (offered (.inl requesting)).next acknowledged.2.1 _

/-- In every run in which offers come where they are expected, a request answers an offer, with its server and
    address, and a client that becomes bound takes its address from an acknowledgement after the offer. -/
theorem lease_follows_offer (cfg : Config) {start net after : Net} {events : List Event} {e : Event} {sent : Option Request}
    (initial : start.dhcp_state = .INIT) (run : Run (Guarded Proper (Step cfg)) start events net) (proper : Proper net e)
    (done : perform cfg net e = some (after,sent)) :
    (∀ request, sent = some request → ∃ offer server address, e = .packet offer ∧ OfType offer.payload DHCP_OFFER ∧
      readQuad (offer.payload.drop bp_id) = some net.BootpID ∧ ServerIs offer.payload server ∧
      readQuad (offer.payload.drop bp_yiaddr) = some address ∧ request.id = net.BootpID ∧ Asks request server address) ∧
    (net.dhcp_state ≠ .BOUND → after.dhcp_state = .BOUND → ∃ ack, e = .packet ack ∧ OfType ack.payload 5 ∧
      readQuad (ack.payload.drop bp_id) = some after.BootpID ∧ readQuad (ack.payload.drop bp_yiaddr) = some after.NetOurIP ∧
      Offered cfg start events after) := by
  cases perform_outcome done with
  | again selecting => exact ⟨fun _ given => (nomatch given),fun _ bound => absurd (selecting.symm.trans bound) (by decide)⟩
  | same => exact ⟨fun _ given => (nomatch given),fun other bound => absurd bound other⟩
  | requested bp accepted selecting processed sends =>
    refine ⟨fun request given => ?_,fun _ bound => ?_⟩
    · cases given
      obtain ⟨type,server,address,named,yiaddr,id,asks⟩ := request_answers accepted ((proper accepted).1 selecting) processed sends
      exact ⟨_,server,address,rfl,type,accepted.payload_id,named,yiaddr,id,asks⟩
    · rw [(processOptions_keeps processed).state] at bound
      cases bound
  | bound bp net₁ net₂ accepted requesting found processed copied =>
    obtain ⟨type,id,address⟩ := bound_acknowledged accepted ((proper accepted).2 requesting) found processed copied
    obtain ⟨before,offer,later,mid,reached,request,split,earlier,offerType,offerId,answered⟩ :=
      (waiting_offered initial run).2 (.inl requesting)
    exact ⟨fun _ given => (nomatch given),fun _ _ => ⟨_,rfl,type,accepted.payload_id.trans (congrArg some id.symm),address,
      before,offer,later,mid,reached,request,split,earlier,offerType,offerId.trans (congrArg some id.symm),answered⟩⟩

/-! ### One lease -/

def message (address : Quad) (options : List UInt8) : List UInt8 :=
  [2,1,6,0,0,0,0,0] ++ List.replicate 8 0 ++ address.bytes ++ List.replicate 216 0 ++ (BOOTP_VENDOR_MAGIC.bytes ++ options)

def received (memory : List UInt8) : Packet := ⟨[],memory,68,67,memory.length⟩

def offerPacket : Packet := received (message (10,0,0,9) [53,1,2,54,4,10,0,0,1,255])
def ackPacket : Packet := received (message (10,0,0,9) [53,1,5,255])

def waitingNet : Net := { startDhcp zeroQuad (freshNet .INIT) with dhcp_state := .REQUESTING, NetDHCPServerIP := (10,0,0,1) }

def waitingRequest : Request := ⟨zeroQuad,DhcpExtended DHCP_REQUEST (10,0,0,1) (10,0,0,9)⟩

theorem offer_requested :
    perform plainConfig (startDhcp zeroQuad (freshNet .INIT)) (.packet offerPacket) = some (waitingNet,some waitingRequest) := by
  decide +kernel

theorem offer_proper : PlainOffer offerPacket.payload := by
  refine ⟨[⟨53,[2],by decide,by decide⟩],[],⟨54,[10,0,0,1],by decide,by decide⟩,(10,0,0,1),(10,0,0,9),⟨⟨[],by decide +kernel⟩,?_⟩,rfl,rfl,rfl,
    by decide,?_,by decide,by decide +kernel,by decide⟩
  · simp
  · simp

theorem ack_proper : PlainMessage ackPacket.payload [⟨53,[5],by decide,by decide⟩] := by
  refine ⟨⟨[],by decide +kernel⟩,?_⟩
  simp

theorem lease_from_ack :
    (∃ server address, ServerIs offerPacket.payload server ∧ readQuad (offerPacket.payload.drop bp_yiaddr) = some address ∧
      Asks waitingRequest server address) ∧
    OfType ackPacket.payload 5 ∧
    perform plainConfig waitingNet (.packet ackPacket) = some ({ waitingNet with dhcp_state := .BOUND, NetOurIP := (10,0,0,9), NetServerEther := [] },none) := by
  have started : Run (Guarded Proper (Step plainConfig)) (freshNet .INIT) [.start zeroQuad] (startDhcp zeroQuad (freshNet .INIT)) :=
    .single ⟨trivial,none,rfl⟩
  have proper : Proper (startDhcp zeroQuad (freshNet .INIT)) (.packet offerPacket) := fun _ => ⟨fun _ => offer_proper,fun wrong => (nomatch wrong)⟩
  have bound : perform plainConfig waitingNet (.packet ackPacket) =
      some ({ waitingNet with dhcp_state := .BOUND, NetOurIP := (10,0,0,9), NetServerEther := [] },none) := by decide +kernel
  have asked := (lease_follows_offer plainConfig rfl started proper offer_requested).1 waitingRequest rfl
  have properAck : Proper waitingNet (.packet ackPacket) := fun _ => ⟨fun wrong => (nomatch wrong),fun _ _ => ⟨_,ack_proper⟩⟩
  have leased := (lease_follows_offer plainConfig rfl (started.next ⟨proper,_,offer_requested⟩) properAck bound).2 (by decide) rfl
  obtain ⟨offer,server,address,same,_,_,named,yiaddr,_,asks⟩ := asked
  obtain ⟨ack,same',type,_⟩ := leased
  cases same
  cases same'
  exact ⟨⟨server,address,named,yiaddr,asks⟩,type,bound⟩

/-! ### Other messages -/

theorem items_unique {more' : List UInt8} : ∀ {items items' : List Item},
    items.flatMap Item.encode ++ 255 :: more = items'.flatMap Item.encode ++ 255 :: more' → items = items' := by
  have ending : ∀ {item : Item} {rest rest' : List UInt8}, item.encode ++ rest ≠ 255 :: rest' := by
    intro item rest rest' same
    cases item with
    | pad => cases same
    | opt o => exact o.plain.2 (head_eq_of_cons_eq same)
  intro items
  induction items with
  | nil =>
    intro items' same
    cases items' with
    | nil => rfl
    | cons item items' =>
      rw [flatMap_cons,append_assoc] at same
      exact absurd same.symm ending
  | cons item items ih =>
    intro items' same
    cases items' with
    | nil =>
      rw [flatMap_cons,append_assoc] at same
      exact absurd same ending
    | cons item' items' =>
      rw [flatMap_cons,flatMap_cons,append_assoc,append_assoc] at same
      cases item with
      | pad =>
        cases item' with
        | pad => rw [ih (tail_eq_of_cons_eq same)]
        | opt o' => exact absurd (head_eq_of_cons_eq same).symm o'.plain.1
      | opt o =>
        cases item' with
        | pad => exact absurd (head_eq_of_cons_eq same) o.plain.1
        | opt o' =>
          obtain ⟨code,value,plain,short⟩ := o
          obtain ⟨code',value',plain',short'⟩ := o'
          obtain ⟨rfl,same⟩ := List.cons.inj same
          obtain ⟨size,same⟩ := List.cons.inj same
          have size : value.length = value'.length := by
            have numbers := congrArg UInt8.toNat size
            simp only [UInt8.toNat_ofNat'] at numbers
            omega
          obtain ⟨values,rest⟩ := append_inj same size
          cases values
          rw [ih rest]

theorem Lists.unique {items' : List Item} (lists : Lists area items) (lists' : Lists area items') : items = items' := by
  obtain ⟨more,rfl⟩ := lists
  obtain ⟨more',same⟩ := lists'
  exact items_unique (append_cancel_left same)

theorem OfType.unique {payload : List UInt8} {type type' : UInt8} (is : OfType payload type) (is' : OfType payload type') : type = type' := by
  obtain ⟨items,lists,value⟩ := is
  obtain ⟨items',lists',value'⟩ := is'
  rw [← lists.unique lists',value] at value'
  exact head_eq_of_cons_eq (Option.some.inj value')

def nakPacket : Packet := received (message zeroQuad [53,1,6,255])
def namelessPacket : Packet := received (message (10,0,0,9) [53,1,2,255])

/-- A DHCPNAK behind a padding byte, and a host name that looks like the type of an acknowledgement. -/
def paddedPacket : Packet :=
  received (message (10,0,0,9) ([0,53,1,6,12,52] ++ List.replicate 49 97 ++ [53,1,5] ++ [255]))

/-- A DHCPNAK is answered by a request; an offer that does not name a server is answered by a request to the server of
    an earlier attempt; and a DHCPNAK with padding binds the client. -/
theorem other_messages_answered :
    OfType nakPacket.payload 6 ∧ ¬ OfType nakPacket.payload DHCP_OFFER ∧
    (∃ after request, perform plainConfig (startDhcp zeroQuad (freshNet .INIT)) (.packet nakPacket) = some (after,some request)) ∧
    (∀ server, ¬ ServerIs namelessPacket.payload server) ∧
    (∃ after, perform plainConfig (BootpTimeout zeroQuad waitingNet) (.packet namelessPacket) = some (after,some waitingRequest)) ∧
    OfType paddedPacket.payload 6 ∧ ¬ OfType paddedPacket.payload 5 ∧
    ∃ after, perform plainConfig waitingNet (.packet paddedPacket) = some (after,none) ∧ after.dhcp_state = .BOUND ∧ after.NetOurIP = (10,0,0,9) := by
  have nak : OfType nakPacket.payload 6 := ⟨[.opt ⟨53,[6],by decide,by decide⟩],⟨[],by decide +kernel⟩,rfl⟩
  have padded : OfType paddedPacket.payload 6 :=
    ⟨[.pad,.opt ⟨53,[6],by decide,by decide⟩,.opt ⟨12,List.replicate 49 97 ++ [53,1,5],by decide,by decide⟩],⟨[],by decide +kernel⟩,rfl⟩
  have nameless : Lists (namelessPacket.payload.drop bp_vend) [.opt ⟨53,[2],by decide,by decide⟩] := ⟨[],by decide +kernel⟩
  refine ⟨nak,fun is => absurd (nak.unique is) (by decide),?_,fun server ⟨items,lists,value⟩ => ?_,?_,padded,fun is => absurd (padded.unique is) (by decide),?_⟩
  · exact ⟨{ startDhcp zeroQuad (freshNet .INIT) with dhcp_state := .REQUESTING },⟨zeroQuad,DhcpExtended DHCP_REQUEST zeroQuad zeroQuad⟩,by decide +kernel⟩
  · rw [← nameless.unique lists] at value
    cases value
  · exact ⟨{ waitingNet with BootpTry := 2 },by decide +kernel⟩
  · exact ⟨{ waitingNet with dhcp_state := .BOUND, NetOurIP := (10,0,0,9), NetServerEther := [] },by decide +kernel,rfl,rfl⟩

end UBoot.DhcpLease
