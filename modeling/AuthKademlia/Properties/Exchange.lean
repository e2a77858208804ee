import AuthKademlia.Properties.Delivery
import AuthKademlia.Protocol.Exchange

/-! # Answers that were given to the call

Between nodes whose addresses nobody forges, a call ends with an answer only if the node
it went to handled this very request and gave this answer, and whatever a node handles as
a request of another, the other has asked it. Frames are told apart by the wire format,
datagrams by their fragment ids, and requests by their message ids. -/
namespace AuthKademlia.Properties
open AuthKademlia.Fragmentation AuthKademlia.Utils AuthKademlia.Storage AuthKademlia.Protocol
open AuthKademlia.Protocol.InProgress (Frame)
open AuthKademlia.AuthHandler
open AuthKademlia.Protocol.Pending AuthKademlia.Protocol.Wire AuthKademlia.Protocol.Exchange

/-- What an encoded frame is: a request of a call, or what a handler or the worker before it
has answered. -/
inductive FrameOrigin (p : Party) (e : Encoded) : Prop
  | request (isRequest : e.frame.isRequest = true)
      (asks : (e.frame.msgId, e.dest, e.frame.message) ∈ asked p.endpoint)
  | answer (r : Exchange.Request) (frame : e.frame = ⟨r.msgId, false, e.frame.message⟩)
      (dest : e.dest = r.peer)
      (given : e.frame.message = .received ∨ (r, some e.frame.message) ∈ p.answers)

theorem FrameOrigin.mono {p p' : Party} {e : Encoded} (h : FrameOrigin p e)
    (hasked : ∀ a ∈ asked p.endpoint, a ∈ asked p'.endpoint)
    (hanswers : ∀ a ∈ p.answers, a ∈ p'.answers) : FrameOrigin p' e := by
  cases h with
  | request isRequest asks => exact .request isRequest (hasked _ asks)
  | answer r frame dest given => exact .answer r frame dest (given.imp_right (hanswers _))

theorem asked_subset_move (s : Endpoint) (m : Pending.Move) :
    ∀ a ∈ asked s, a ∈ asked (s.move m) := by
  intro a ha
  rw [asked_move]
  exact List.mem_append_left _ ha

theorem msgId_lt {s : Endpoint} {ms : List Pending.Move} (h : InOrder ms s) {i : Nat}
    {c : CallState}
    (hc : s.calls[i]? = some c) : c.msgId < 2 ^ 32 := by
  rw [h.ids i c hc]
  exact Nat.mod_lt _ (by decide)

theorem mem_asked {s : Endpoint} {i : Nat} {c : CallState} (hc : s.calls[i]? = some c) :
    (c.msgId, c.peer, c.request) ∈ asked s :=
  List.mem_map.mpr ⟨c, List.mem_of_getElem? hc, rfl⟩

/-- Encoded frames and calls are kept. -/
structure Grows (p p' : Party) : Prop where
  encoded : p.encoded <+: p'.encoded
  calls : p.endpoint.calls.length ≤ p'.endpoint.calls.length

theorem grows_same {p p' : Party} (he : p'.encoded = p.encoded) (hc : p'.endpoint = p.endpoint) :
    Grows p p' := ⟨he ▸ List.prefix_refl _, hc ▸ Nat.le_refl _⟩

theorem grows_endpoint (p : Party) (m : Pending.Move) :
    Grows p { p with endpoint := p.endpoint.move m } :=
  ⟨List.prefix_refl _, length_calls_move p.endpoint m⟩

section
variable [FrameCodec]

/-- The frames that a node has read. -/
def readFrames (start : Instant) (rs : List (Reception Addr)) : List (Addr × Frame) :=
  framesIn ⟨∅, start⟩ rs

/-- **The invariant of one node**, after the moves `ms` of its calls and the receptions
`rs`. -/
structure PartyInv (srv : Server) (start : Instant) (p : Party) (ms : List Pending.Move)
    (rs : List (Reception Addr)) : Prop where
  calls : InOrder ms p.endpoint
  sendable : ∀ a ∈ asked p.endpoint, Sendable a.2.2
  heard : ∀ peer msgId message, .response peer msgId message ∈ ms →
    (peer, ⟨msgId, false, message⟩) ∈ readFrames start rs
  receiver : p.receiver = received start rs
  inbox : ∀ f ∈ p.inbox, f ∈ readFrames start rs
  requests : ∀ r ∈ p.requests, (r.peer, ⟨r.msgId, true, r.message⟩) ∈ readFrames start rs
  answers : ∀ r response, (r, response) ∈ p.answers →
    (r.peer, ⟨r.msgId, true, r.message⟩) ∈ readFrames start rs ∧
      ∃ t, (dispatchMessage srv t r.peer r.message).Returns response
  next : p.nextFragId = UInt32.ofNat p.encoded.length
  ids : ∀ (j : Nat) e, p.encoded[j]? = some e → e.fragId = UInt32.ofNat j
  fits : ∀ e ∈ p.encoded, WellFormed e.frame ∧ (serialize e.frame).length ≤ maxMessageSize
  origin : ∀ e ∈ p.encoded, FrameOrigin p e

variable {srv : Server} {start : Instant} {p : Party} {ms : List Pending.Move}
  {rs : List (Reception Addr)}

theorem partyInv_new (srv : Server) (contacts : Contacts) (start : Instant) :
    PartyInv srv start (.new contacts start) [] [] where
  calls := inOrder_new contacts
  sendable := by simp [asked, Party.new, Endpoint.new]
  heard := by simp
  receiver := rfl
  inbox := by simp [Party.new]
  requests := by simp [Party.new]
  answers := by simp [Party.new]
  next := rfl
  ids := by simp [Party.new]
  fits := by simp [Party.new]
  origin := by simp [Party.new]

/-! ## One move -/

/-- **A move of the calls.** -/
theorem PartyInv.endpoint (h : PartyInv srv start p ms rs)
    (hfew : p.endpoint.calls.length ≤ 2 ^ 32) (m : Pending.Move)
    (hcall : ∀ peer request, m = .call peer request → Sendable request)
    (hheard : ∀ peer msgId message, m = .response peer msgId message →
      (peer, ⟨msgId, false, message⟩) ∈ readFrames start rs) :
    PartyInv srv start { p with endpoint := p.endpoint.move m } (ms ++ [m]) rs where
  calls := h.calls.move hfew m
  sendable := by
    intro a ha
    have ha' : a ∈ asked (p.endpoint.move m) := ha
    rw [asked_move] at ha'
    rcases List.mem_append.mp ha' with ha' | ha'
    · exact h.sendable a ha'
    · cases m with
      | call peer request =>
        obtain rfl := List.mem_singleton.mp ha'
        exact hcall peer request rfl
      | insert | abandon | response | welcome | deliver | finish | giveUp | removal | meet =>
        cases ha'
  heard := by
    intro peer msgId message hmem
    rcases List.mem_append.mp hmem with hmem | hmem
    · exact h.heard peer msgId message hmem
    · exact hheard peer msgId message (List.mem_singleton.mp hmem).symm
  receiver := h.receiver
  inbox := h.inbox
  requests := h.requests
  answers := h.answers
  next := h.next
  ids := h.ids
  fits := h.fits
  origin := fun e he => (h.origin e he).mono (asked_subset_move _ m) fun a ha => ha

/-- **A frame is encoded.** -/
theorem PartyInv.encode (h : PartyInv srv start p ms rs) {dest : Addr} {frame : Frame}
    {call : Option Nat} {p' : Party} (hp' : p.encode dest frame call = some p')
    (hwell : WellFormed frame)
    (horigin : FrameOrigin p ⟨dest, p.nextFragId, frame, call⟩) :
    PartyInv srv start p' ms rs := by
  obtain ⟨ds, hds, rfl⟩ := Option.map_eq_some_iff.mp hp'
  have hsize : (serialize frame).length ≤ maxMessageSize := by
    by_contra hlong
    rw [encodeFrame, if_pos (Nat.not_le.mp hlong)] at hds
    cases hds
  refine ⟨h.calls, h.sendable, h.heard, h.receiver, h.inbox, h.requests, h.answers, ?_, ?_, ?_, ?_⟩
  · rw [h.next, List.length_append, List.length_singleton, UInt32.ofNat_add]
    rfl
  · intro j e he
    rw [List.getElem?_append] at he
    split at he
    · exact h.ids j e he
    · rename_i hge
      rw [List.getElem?_singleton] at he
      split at he
      · rename_i hj
        obtain rfl := Option.some.inj he
        obtain rfl : p.encoded.length = j := by omega
        exact h.next
      · cases he
  · intro e he
    rcases List.mem_append.mp he with he | he
    · exact h.fits e he
    · obtain rfl := List.mem_singleton.mp he
      exact ⟨hwell, hsize⟩
  · intro e he
    rcases List.mem_append.mp he with he | he
    · exact (h.origin e he).mono (fun a ha => ha) fun a ha => ha
    · obtain rfl := List.mem_singleton.mp he
      exact horigin.mono (fun a ha => ha) fun a ha => ha

theorem wellFormed_readFrames {x : Addr} {f : Frame} (hf : (x, f) ∈ readFrames start rs) :
    WellFormed f := by
  have hall : ∀ (rs : List (Reception Addr)) (r : Receiver Addr),
      (x, f) ∈ framesIn r rs → WellFormed f := by
    intro rs
    induction rs with
    | nil => intro r hf; cases hf
    | cons e rs ih =>
      intro r hf
      cases e with
      | gc now => exact ih _ hf
      | datagram gcNow now peer data =>
        rcases List.mem_append.mp hf with hf | hf
        · obtain ⟨f', hf', he⟩ := Option.map_eq_some_iff.mp (Option.mem_toList.mp hf)
          obtain ⟨-, rfl⟩ := Prod.mk.inj he
          obtain ⟨payload, -, hread⟩ := Option.bind_eq_some_iff.mp hf'
          exact wellFormed_of_deserialize hread
        · exact ih _ hf
  exact hall rs _ hf

/-- **An answer is sent**, if it can be encoded. -/
theorem PartyInv.answer (h : PartyInv srv start p ms rs) {r : Exchange.Request}
    (hread : (r.peer, ⟨r.msgId, true, r.message⟩) ∈ readFrames start rs)
    {response : Option Message} (hsendable : ∀ message ∈ response, Sendable message)
    (hgiven : ∀ message ∈ response, message = .received ∨ (r, some message) ∈ p.answers) :
    PartyInv srv start (p.answer r response) ms rs := by
  cases response with
  | none => exact h
  | some message =>
    rw [Party.answer]
    cases hp' : p.encode r.peer ⟨r.msgId, false, message⟩ none with
    | none => exact h
    | some p' =>
      exact h.encode hp' ⟨(wellFormed_readFrames hread).1, hsendable message rfl⟩
        (.answer r rfl rfl (hgiven message rfl))

def receptions : Exchange.Move → List (Reception Addr)
  | .receive gcNow now peer data => [.datagram gcNow now peer data]
  | .gc now => [.gc now]
  | .call _ _ | .encode _ | .insert _ | .onward _ | .take _ | .receipt _ | .respond _ _
  | .drop _ => []

theorem readFrames_append (rs' : List (Reception Addr)) :
    readFrames start (rs ++ rs') =
      readFrames start rs ++ framesIn (received start rs) rs' :=
  framesIn_append rs rs' _

theorem mem_readFrames_append {f : Addr × Frame} (hf : f ∈ readFrames start rs)
    (rs' : List (Reception Addr)) : f ∈ readFrames start (rs ++ rs') := by
  rw [readFrames_append]
  exact List.mem_append_left _ hf

/-- **Something is received.** -/
theorem PartyInv.receive (h : PartyInv srv start p ms rs) (e : Reception Addr)
    {inbox : List (Addr × Frame)}
    (hinbox : ∀ f ∈ inbox, f ∈ p.inbox ∨ f ∈ framesOf p.receiver e) :
    PartyInv srv start { p with receiver := Properties.receive p.receiver e, inbox } ms
      (rs ++ [e]) where
  calls := h.calls
  sendable := h.sendable
  heard := fun peer msgId message hm =>
    mem_readFrames_append (h.heard peer msgId message hm) _
  receiver := by
    rw [h.receiver, received, received, List.foldl_append]
    rfl
  inbox := by
    intro f hf
    rcases hinbox f hf with hf | hf
    · exact mem_readFrames_append (h.inbox f hf) _
    · rw [readFrames_append, ← h.receiver]
      exact List.mem_append_right _ hf
  requests := fun r hr => mem_readFrames_append (h.requests r hr) _
  answers := fun r response hr =>
    ⟨mem_readFrames_append (h.answers r response hr).1 _, (h.answers r response hr).2⟩
  next := h.next
  ids := h.ids
  fits := h.fits
  origin := fun e he => (h.origin e he).mono (fun a ha => ha) fun a ha => ha

/-- **Requests and frames move on**; what was handled is answered. -/
theorem PartyInv.pass (h : PartyInv srv start p ms rs) (inbox : List (Addr × Frame))
    (requests : List Exchange.Request) (handled : List (Exchange.Request × Option Message))
    (hinbox : ∀ f ∈ inbox, f ∈ p.inbox)
    (hrequests : ∀ r ∈ requests, (r.peer, ⟨r.msgId, true, r.message⟩) ∈ readFrames start rs)
    (hhandled : ∀ r response, (r, response) ∈ handled →
      (r.peer, ⟨r.msgId, true, r.message⟩) ∈ readFrames start rs ∧
        ∃ t, (dispatchMessage srv t r.peer r.message).Returns response) :
    PartyInv srv start { p with inbox, requests, answers := p.answers ++ handled } ms rs where
  calls := h.calls
  sendable := h.sendable
  heard := h.heard
  receiver := h.receiver
  inbox := fun f hf => h.inbox f (hinbox f hf)
  requests := hrequests
  answers := by
    intro r response hr
    rcases List.mem_append.mp hr with hr | hr
    · exact h.answers r response hr
    · exact hhandled r response hr
  next := h.next
  ids := h.ids
  fits := h.fits
  origin := fun e he =>
    (h.origin e he).mono (fun a ha => ha) fun a ha => List.mem_append_left _ ha

theorem PartyInv.read_request (h : PartyInv srv start p ms rs) {k : Nat} {r : Exchange.Request}
    (hr : p.requests[k]? = some r) :
    (r.peer, ⟨r.msgId, true, r.message⟩) ∈ readFrames start rs :=
  h.requests r (List.mem_of_getElem? hr)

theorem PartyInv.encodeCall (h : PartyInv srv start p ms rs)
    (hfew : p.endpoint.calls.length ≤ 2 ^ 32) (i : Nat) :
    ∃ ms', PartyInv srv start (p.move (.encode i)) ms' rs := by
  simp only [Party.move]
  split
  · rename_i c hc
    split
    · cases hp' : p.encode c.peer ⟨c.msgId, true, c.request⟩ (some i) with
      | none => exact ⟨_, h.endpoint hfew (.abandon i) (by simp) (by simp)⟩
      | some p' =>
        have hasks := mem_asked hc
        exact ⟨ms, h.encode hp' ⟨msgId_lt h.calls hc, h.sendable _ hasks⟩
          (.request rfl hasks)⟩
    · exact ⟨ms, h⟩
  · exact ⟨ms, h⟩

theorem PartyInv.take (h : PartyInv srv start p ms rs)
    (hfew : p.endpoint.calls.length ≤ 2 ^ 32) (k : Nat) :
    ∃ ms', PartyInv srv start (p.move (.take k)) ms' rs := by
  simp only [Party.move]
  split
  · rename_i peer f hf
    have hread := h.inbox _ (List.mem_of_getElem? hf)
    have herase : ∀ g ∈ p.inbox.eraseIdx k, g ∈ p.inbox := fun g hg => List.mem_of_mem_eraseIdx hg
    obtain ⟨msgId, isRequest, message⟩ := f
    cases isRequest with
    | true =>
      refine ⟨ms, ?_⟩
      have hpass := h.pass _ (p.requests ++ [⟨peer, msgId, message⟩]) [] herase ?_ (by simp)
      · simpa using hpass
      · intro r hr
        rcases List.mem_append.mp hr with hr | hr
        · exact h.requests r hr
        · obtain rfl := List.mem_singleton.mp hr
          exact hread
    | false =>
      have hpass := h.pass _ _ [] herase h.requests (by simp)
      refine ⟨ms ++ [.response peer msgId message], ?_⟩
      have hmove := hpass.endpoint hfew (.response peer msgId message) (by simp) ?_
      · simpa using hmove
      · intro peer' msgId' message' he
        obtain ⟨rfl, rfl, rfl⟩ := Pending.Move.response.inj he
        exact hread
  · exact ⟨ms, h⟩

/-- **A move of a node keeps its invariant.** -/
theorem PartyInv.move (h : PartyInv srv start p ms rs)
    (hfew : p.endpoint.calls.length ≤ 2 ^ 32) (m : Exchange.Move)
    (hcall : ∀ peer request, m = .call peer request → Sendable request)
    (hrespond : ∀ k response r, m = .respond k response → p.requests[k]? = some r →
      (∃ t, (dispatchMessage srv t r.peer r.message).Returns response) ∧
        ∀ message ∈ response, Sendable message) :
    ∃ ms', PartyInv srv start (p.move m) ms' (rs ++ receptions m) := by
  cases m with
  | call peer request =>
    rw [receptions, List.append_nil]
    refine ⟨_, h.endpoint hfew (.call peer request) ?_ (by simp)⟩
    intro peer' request' he
    obtain ⟨-, rfl⟩ := Pending.Move.call.inj he
    exact hcall peer request rfl
  | encode i =>
    rw [receptions, List.append_nil]
    exact h.encodeCall hfew i
  | insert i =>
    rw [receptions, List.append_nil]
    simp only [Party.move]
    split
    · exact ⟨_, h.endpoint hfew (.insert i) (by simp) (by simp)⟩
    · exact ⟨ms, h⟩
  | onward m =>
    rw [receptions, List.append_nil]
    simp only [Party.move]
    split
    · rename_i hm
      refine ⟨_, h.endpoint hfew m ?_ ?_⟩
      · rintro peer request rfl
        cases hm
      · rintro peer msgId message rfl
        cases hm
    · exact ⟨ms, h⟩
  | receive gcNow now peer data =>
    refine ⟨ms, h.receive (.datagram gcNow now peer data) fun f hf => ?_⟩
    simp only [framesOf, framesIn, List.append_nil]
    exact List.mem_append.mp hf
  | gc now => exact ⟨ms, h.receive (.gc now) fun f hf => Or.inl hf⟩
  | take k =>
    rw [receptions, List.append_nil]
    exact h.take hfew k
  | receipt k =>
    rw [receptions, List.append_nil]
    refine ⟨ms, ?_⟩
    simp only [Party.move]
    split
    · rename_i r hr
      split
      · refine h.answer (h.read_request hr) ?_ ?_
        · rintro message hm
          obtain rfl := Option.some.inj hm
          exact FrameCodec.received
        · rintro message hm
          exact Or.inl (Option.some.inj hm).symm
      · exact h
    · exact h
  | respond k response =>
    rw [receptions, List.append_nil]
    refine ⟨ms, ?_⟩
    simp only [Party.move]
    split
    · rename_i r hr
      obtain ⟨hreturns, hsendable⟩ := hrespond k response r rfl hr
      have hread := h.read_request hr
      have hpass := h.pass p.inbox (p.requests.eraseIdx k) [(r, response)] (fun f hf => hf)
        (fun r' hr' => h.requests r' (List.mem_of_mem_eraseIdx hr')) ?_
      · refine hpass.answer hread hsendable fun message hm => Or.inr ?_
        exact List.mem_append_right _ (List.mem_singleton.mpr (by rw [← Option.mem_def.mp hm]))
      · intro r' response' hr'
        obtain ⟨rfl, rfl⟩ := Prod.mk.inj (List.mem_singleton.mp hr')
        exact ⟨hread, hreturns⟩
    · exact h
  | drop k =>
    rw [receptions, List.append_nil]
    refine ⟨ms, ?_⟩
    have hpass := h.pass p.inbox (p.requests.eraseIdx k) [] (fun f hf => hf)
      (fun r hr => h.requests r (List.mem_of_mem_eraseIdx hr)) (by simp)
    simpa [Party.move] using hpass

/-! ## The network -/

theorem grows_encode {p p' : Party} {dest : Addr} {frame : Frame} {call : Option Nat}
    (h : p.encode dest frame call = some p') : Grows p p' := by
  obtain ⟨ds, -, rfl⟩ := Option.map_eq_some_iff.mp h
  exact ⟨List.prefix_append _ _, Nat.le_refl _⟩

theorem grows_answer (p : Party) (r : Exchange.Request) (response : Option Message) :
    Grows p (p.answer r response) := by
  cases response with
  | none => exact grows_same rfl rfl
  | some message =>
    rw [Party.answer]
    cases hp' : p.encode r.peer ⟨r.msgId, false, message⟩ none with
    | none => exact grows_same rfl rfl
    | some p' => exact grows_encode hp'

theorem grows_move (p : Party) (m : Exchange.Move) : Grows p (p.move m) := by
  cases m with
  | call peer request => exact grows_endpoint p _
  | receive | gc | drop => exact grows_same rfl rfl
  | encode i =>
    simp only [Party.move]
    split
    · rename_i c _
      split
      · cases hp' : p.encode c.peer ⟨c.msgId, true, c.request⟩ (some i) with
        | none => exact grows_endpoint p _
        | some p' => exact grows_encode hp'
      · exact grows_same rfl rfl
    · exact grows_same rfl rfl
  | insert i | onward m =>
    simp only [Party.move]
    split
    · exact grows_endpoint p _
    · exact grows_same rfl rfl
  | take k =>
    simp only [Party.move]
    split
    · split
      · exact grows_same rfl rfl
      · exact ⟨List.prefix_refl _, length_calls_move p.endpoint _⟩
    · exact grows_same rfl rfl
  | receipt k =>
    simp only [Party.move]
    split
    · split
      · exact grows_answer p _ _
      · exact grows_same rfl rfl
    · exact grows_same rfl rfl
  | respond k response =>
    simp only [Party.move]
    split
    · rename_i r _
      obtain ⟨hencoded, hcalls⟩ := grows_answer
        { p with requests := p.requests.eraseIdx k, answers := p.answers ++ [(r, response)] }
        r response
      exact ⟨hencoded, hcalls⟩
    · exact grows_same rfl rfl

theorem grows_act (net : Net) (x : Addr) (a : Action) (y : Addr) :
    Grows (net.parties y) ((net.act x a).parties y) := by
  cases a with
  | move m =>
    simp only [Net.act]
    by_cases hy : y = x
    · subst hy
      rw [Function.update_self]
      exact grows_move _ m
    · rw [Function.update_of_ne hy]
      exact grows_same rfl rfl
  | send j n =>
    simp only [Net.act]
    split <;> exact grows_same rfl rfl

section
variable {honest : Addr → Prop} {srv : Addr → Server} {start : Addr → Instant} {net : Net}
  {x : Addr}

/-- The datagram is one of a frame that `source` encoded for `dest`. -/
def SentBy (net : Net) (source dest : Addr) (data : Bytes) : Prop :=
  ∃ e ∈ (net.parties source).encoded, e.dest = dest ∧ data ∈ e.datagrams

theorem SentBy.act {source dest : Addr} {data : Bytes} (h : SentBy net source dest data)
    (x : Addr) (a : Action) : SentBy (net.act x a) source dest data := by
  obtain ⟨e, he, hdest, hdata⟩ := h
  exact ⟨e, (grows_act net x a source).encoded.subset he, hdest, hdata⟩

/-- What the node at `x` receives from a node was sent to it. -/
def FromSender (honest : Addr → Prop) (net : Net) (x : Addr) : Reception Addr → Prop
  | .datagram _ _ peer data => honest peer → SentBy net peer x data
  | .gc _ => True

theorem FromSender.act {e : Reception Addr} (h : FromSender honest net x e) (y : Addr)
    (a : Action) : FromSender honest (net.act y a) x e := by
  cases e with
  | datagram gcNow now peer data => exact fun hpeer => (h hpeer).act y a
  | gc now => trivial

/-- **The invariant of the network.** -/
structure NetInv (honest : Addr → Prop) (srv : Addr → Server) (start : Addr → Instant)
    (net : Net) : Prop where
  party : ∀ x, honest x → ∃ ms rs, PartyInv (srv x) (start x) (net.parties x) ms rs ∧
    ∀ e ∈ rs, FromSender honest net x e
  wire : ∀ packet ∈ net.wire, SentBy net packet.source packet.dest packet.data

theorem netInv_new (honest : Addr → Prop) (srv : Addr → Server) (contacts : Addr → Contacts)
    (start : Addr → Instant) : NetInv honest srv start (.new contacts start) where
  party := fun x _ => ⟨[], [], partyInv_new (srv x) (contacts x) (start x), by simp⟩
  wire := by simp [Net.new]

theorem NetInv.move (h : NetInv honest srv start net) (hx : honest x) (m : Exchange.Move)
    (hallowed : Allowed honest srv net x (.move m))
    (hfew : (net.parties x).endpoint.calls.length ≤ 2 ^ 32) :
    NetInv honest srv start (net.act x (.move m)) where
  party := by
    intro y hy
    obtain ⟨ms, rs, hinv, hrs⟩ := h.party y hy
    by_cases hyx : y = x
    · subst hyx
      obtain ⟨ms', hinv'⟩ := hinv.move hfew m
        (by rintro peer request rfl; exact hallowed)
        (by rintro k response r rfl hr; exact hallowed r hr)
      refine ⟨ms', rs ++ receptions m, ?_, ?_⟩
      · simp only [Net.act, Function.update_self]
        exact hinv'
      · intro e he
        rcases List.mem_append.mp he with he | he
        · exact (hrs e he).act y _
        · cases m with
          | receive gcNow now peer data =>
            obtain rfl := List.mem_singleton.mp he
            exact fun hpeer => (h.wire _ (hallowed hpeer)).act y _
          | gc now =>
            obtain rfl := List.mem_singleton.mp he
            trivial
          | call | encode | insert | onward | take | receipt | respond | drop => cases he
    · refine ⟨ms, rs, ?_, fun e he => (hrs e he).act x _⟩
      simp only [Net.act, Function.update_of_ne hyx]
      exact hinv
  wire := fun packet hp => (h.wire packet hp).act x _

theorem NetInv.send (h : NetInv honest srv start net) (j n : Nat) :
    NetInv honest srv start (net.act x (.send j n)) := by
  have hparties : (net.act x (.send j n)).parties = net.parties := by
    simp only [Net.act]
    split <;> rfl
  refine ⟨fun y hy => ?_, fun packet hp => ?_⟩
  · obtain ⟨ms, rs, hinv, hrs⟩ := h.party y hy
    refine ⟨ms, rs, ?_, fun e he => (hrs e he).act x _⟩
    rw [hparties]
    exact hinv
  · refine SentBy.act ?_ x _
    simp only [Net.act] at hp
    split at hp
    · rename_i dest data hdatagram
      rcases List.mem_append.mp hp with hp | hp
      · exact h.wire packet hp
      · obtain rfl := List.mem_singleton.mp hp
        unfold Party.datagram at hdatagram
        split at hdatagram
        · rename_i e he
          split at hdatagram
          · obtain ⟨data', hdata, hpair⟩ := Option.map_eq_some_iff.mp hdatagram
            obtain ⟨rfl, rfl⟩ := Prod.mk.inj hpair
            exact ⟨e, List.mem_of_getElem? he, rfl, List.mem_of_getElem? hdata⟩
          · cases hdatagram
        · cases hdatagram
    · exact h.wire packet hp

/-- So few calls and frames that their numbers do not repeat. -/
def Few (honest : Addr → Prop) (net : Net) : Prop :=
  ∀ x, honest x → (net.parties x).endpoint.calls.length ≤ 2 ^ 32 ∧
    (net.parties x).encoded.length ≤ 2 ^ 32

theorem Few.of_act {a : Action} (h : Few honest (net.act x a)) : Few honest net := by
  intro y hy
  obtain ⟨hencoded, hcalls⟩ := grows_act net x a y
  exact ⟨hcalls.trans (h y hy).1, hencoded.length_le.trans (h y hy).2⟩

/-- **The invariant holds in every run.** -/
theorem netInv_run {contacts : Addr → Contacts} {acts : List (Addr × Action)}
    (hlegal : Legal honest srv (.new contacts start) acts)
    (hfew : Few honest ((Net.new contacts start).run acts)) :
    NetInv honest srv start ((Net.new contacts start).run acts) := by
  induction acts using List.reverseRecOn with
  | nil => exact netInv_new honest srv contacts start
  | append_singleton acts a ih =>
    obtain ⟨x, a⟩ := a
    obtain ⟨hbefore, hx, hallowed⟩ := legal_append hlegal
    rw [run_append] at hfew ⊢
    have h := ih hbefore hfew.of_act
    cases a with
    | move m => exact h.move hx m hallowed (hfew.of_act x hx).1
    | send j n => exact h.send j n

/-! ## Requests and answers of nodes -/

theorem eq_of_fragId_eq {srv : Server} {start : Instant} {p : Party} {ms : List Pending.Move}
    {rs : List (Reception Addr)} (h : PartyInv srv start p ms rs)
    (hfew : p.encoded.length ≤ 2 ^ 32) {e e' : Encoded} (he : e ∈ p.encoded)
    (he' : e' ∈ p.encoded) (hid : e.fragId = e'.fragId) : e = e' := by
  obtain ⟨j, hj⟩ := List.mem_iff_getElem?.mp he
  obtain ⟨j', hj'⟩ := List.mem_iff_getElem?.mp he'
  have hlt := (List.getElem?_eq_some_iff.mp hj).1
  have hlt' := (List.getElem?_eq_some_iff.mp hj').1
  rw [h.ids j e hj, h.ids j' e' hj'] at hid
  have hnat := congrArg UInt32.toNat hid
  rw [UInt32.toNat_ofNat', UInt32.toNat_ofNat', Nat.mod_eq_of_lt (by omega),
    Nat.mod_eq_of_lt (by omega)] at hnat
  subst hnat
  exact Option.some.inj (hj.symm.trans hj')

/-- **A frame read as one of a node was encoded by this node for the reader.** -/
theorem encoded_of_read (h : NetInv honest srv start net) (hfew : Few honest net)
    {y : Addr} (hy : honest y) {rs : List (Reception Addr)}
    (hrs : ∀ e ∈ rs, FromSender honest net x e) {first : Instant} {f : Frame}
    (hf : (y, f) ∈ readFrames first rs) :
    ∃ e ∈ (net.parties y).encoded, e.dest = x ∧ e.frame = f := by
  obtain ⟨ms, rs', hinv, -⟩ := h.party y hy
  let frames := (net.parties y).encoded.filter fun e => e.dest = x
  have hframes : ∀ e ∈ frames, WellFormed e.frame ∧
      (serialize e.frame).length ≤ maxMessageSize := fun e he =>
    hinv.fits e (List.mem_of_mem_filter he)
  let sent := frames.pmap (fun e h => (⟨e.fragId, e.frame, h.1, h.2⟩ : Outgoing)) hframes
  have hsent : ∀ o ∈ sent, ∃ e ∈ (net.parties y).encoded, e.dest = x ∧
      o.fragId = e.fragId ∧ o.frame = e.frame := by
    intro o ho
    obtain ⟨e, he, rfl⟩ := List.mem_pmap.mp ho
    obtain ⟨hmem, hdest⟩ := List.mem_filter.mp he
    exact ⟨e, hmem, of_decide_eq_true hdest, rfl, rfl⟩
  have hown : OwnIds sent := by
    intro o ho o' ho' hid
    obtain ⟨e, he, -, hide, hframe⟩ := hsent o ho
    obtain ⟨e', he', -, hide', hframe'⟩ := hsent o' ho'
    rw [hframe, hframe', eq_of_fragId_eq hinv (hfew y hy).2 he he' (by rw [← hide, hid, hide'])]
  have hsaid : ∀ e ∈ rs, Says y sent e := by
    intro e he
    cases e with
    | gc now => trivial
    | datagram gcNow now peer data =>
      rintro rfl
      obtain ⟨e', he', hdest, hdata⟩ := hrs _ he hy
      have hmem : e' ∈ frames := List.mem_filter.mpr ⟨he', decide_eq_true hdest⟩
      exact ⟨_, List.mem_pmap.mpr ⟨e', hmem, rfl⟩, hdata⟩
  obtain ⟨o, ho, hframe⟩ := framesIn_faithful hown (faithful_empty y sent) hsaid f hf
  obtain ⟨e, he, hdest, -, hframe'⟩ := hsent o ho
  exact ⟨e, he, hdest, hframe'.symm.trans hframe⟩

theorem call_of_request (h : NetInv honest srv start net) (hfew : Few honest net)
    {r : Exchange.Request} (hr : honest r.peer) {rs : List (Reception Addr)}
    (hrs : ∀ e ∈ rs, FromSender honest net x e) {first : Instant}
    (hread : (r.peer, ⟨r.msgId, true, r.message⟩) ∈ readFrames first rs) :
    ∃ (i : Nat) (c : CallState), (net.parties r.peer).endpoint.calls[i]? = some c ∧
      c.peer = x ∧ c.msgId = r.msgId ∧ c.request = r.message := by
  obtain ⟨e, he, hdest, hframe⟩ := encoded_of_read h hfew hr hrs hread
  obtain ⟨ms, rs', hinv, -⟩ := h.party r.peer hr
  cases hinv.origin e he with
  | request _ asks =>
    rw [hframe, hdest] at asks
    obtain ⟨c, hc, hwhat⟩ := List.mem_map.mp asks
    obtain ⟨i, hi⟩ := List.mem_iff_getElem?.mp hc
    obtain ⟨hid, hrest⟩ := Prod.mk.inj hwhat
    obtain ⟨hpeer, hrequest⟩ := Prod.mk.inj hrest
    exact ⟨i, c, hi, hpeer, hid, hrequest⟩
  | answer r' frame dest given =>
    rw [hframe] at frame
    cases congrArg Frame.isRequest frame

/-- **Answers were given to the call.** In every run of nodes whose addresses nobody forges,
with losses, copies and delays and with anything from other addresses, and with at most
`2 ^ 32` calls and frames of a node: a call to a node that ends with an answer was handled
by this node as the request it is, and the answer is what the handler returned; and each
request that a node has read as one of another node is a call of the other node to it. -/
theorem answers_were_given (honest : Addr → Prop) (srv : Addr → Server)
    (contacts : Addr → Contacts) (start : Addr → Instant) (net : Net)
    (hrun : Reachable honest srv contacts start net) (hfew : Few honest net) :
    (∀ x, honest x → ∀ (i : Nat) c message,
      (net.parties x).endpoint.calls[i]? = some c → c.phase = .ended (some message) →
      honest c.peer →
      (⟨x, c.msgId, c.request⟩, some message) ∈ (net.parties c.peer).answers ∧
        ∃ t, (dispatchMessage (srv c.peer) t x c.request).Returns (some message)) ∧
    ∀ x, honest x → ∀ r,
      (r ∈ (net.parties x).requests ∨ ∃ response, (r, response) ∈ (net.parties x).answers) →
      honest r.peer →
      ∃ (i : Nat) (c : CallState), (net.parties r.peer).endpoint.calls[i]? = some c ∧
        c.peer = x ∧ c.msgId = r.msgId ∧ c.request = r.message := by
  have h : NetInv honest srv start net := by
    obtain ⟨acts, hlegal, rfl⟩ := hrun
    exact netInv_run hlegal hfew
  constructor
  · intro x hx i c message hc hended hpeer
    obtain ⟨ms, rs, hinv, hrs⟩ := h.party x hx
    obtain ⟨haccepts, hresponse⟩ :
        (ExpectedResponse.forRequest c.request).accepts message = true ∧
          Pending.Move.response c.peer c.msgId message ∈ ms := by
      have hmem := hinv.calls.results i c message hc hended
      cases hinv.calls.stage i c hc with
      | opening _ _ _ answers | expecting _ _ _ answers | accepted _ _ _ _ answers =>
        rw [answers] at hmem
        cases hmem
      | settled _ _ _ _ fits => exact fits message hmem
    -- the answer comes from the peer, which gave it to a request from here
    obtain ⟨e, he, hdest, hframe⟩ :=
      encoded_of_read h hfew hpeer hrs (hinv.heard _ _ _ hresponse)
    obtain ⟨ms', rs', hinv', hrs'⟩ := h.party c.peer hpeer
    cases hinv'.origin e he with
    | request isRequest asks =>
      rw [hframe] at isRequest
      cases isRequest
    | answer r frame dest given =>
      rw [hframe] at frame given
      have hid : c.msgId = r.msgId := congrArg Frame.msgId frame
      have hx' : r.peer = x := dest.symm.trans hdest
      have hgiven : (r, some message) ∈ (net.parties c.peer).answers := by
        refine given.resolve_left ?_
        rintro rfl
        cases hexp : ExpectedResponse.forRequest c.request <;> rw [hexp] at haccepts <;>
          cases haccepts
      obtain ⟨hread, hreturns⟩ := hinv'.answers r _ hgiven
      -- that request is this call, as no other has its id
      obtain ⟨i', c', hc', -, hid', hrequest⟩ :=
        call_of_request h hfew (hx' ▸ hx) hrs' hread
      rw [hx'] at hc' hreturns
      have hsame : i' = i := by
        rw [← hinv.calls.msgId_eq (hfew x hx).1 hc', ← hinv.calls.msgId_eq (hfew x hx).1 hc,
          hid', hid]
      subst hsame
      obtain rfl := Option.some.inj (hc.symm.trans hc')
      have hr : r = ⟨x, c.msgId, c.request⟩ := by rw [hrequest, hid, ← hx']
      rw [← hr, hrequest]
      exact ⟨hgiven, hreturns⟩
  · intro x hx r hr hpeer
    obtain ⟨ms, rs, hinv, hrs⟩ := h.party x hx
    have hread : (r.peer, ⟨r.msgId, true, r.message⟩) ∈ readFrames (start x) rs := by
      rcases hr with hr | ⟨response, hr⟩
      · exact hinv.requests r hr
      · exact (hinv.answers r response hr).1
    exact call_of_request h hfew hpeer hrs hread

end

end

/-! ## A ping -/

def pingCaller : Addr := ("10.0.0.1", 7000)

def pingCallee : Addr := ("10.0.0.9", 7009)

def pingServers (x : Addr) : Server :=
  ⟨toyPlatform, .fromId (if x = pingCaller then filledId 1 else filledId 9), 2, 3, false, true⟩

def pingContacts (x : Addr) : Contacts := ⟨.new 0 (pingServers x).node 2, ∅, ∅⟩

/-- How bincode writes the messages that are sent. -/
def pingTable : MessageTable where
  entries := [(.ping (filledId 1), [0, 0, 0, 0] ++ (filledId 1).bytes),
    (.pong (filledId 9), [1, 0, 0, 0] ++ (filledId 9).bytes),
    (.pong (filledId 6), [1, 0, 0, 0] ++ (filledId 6).bytes), (.received, [16, 0, 0, 0])]
  messages := by decide
  bytes := by decide
  received := by simp

section
local instance pingCodec : FrameCodec := pingTable.codec

def onlyDatagram (frame : Frame) : Bytes := fragment 0 (serialize frame) 0

/-- A ping and its answer, which somebody else also tries to give. -/
def pingRun : List (Addr × Action) :=
  [(pingCaller, .move (.call pingCallee (.ping (filledId 1)))),
    (pingCaller, .move (.encode 0)), (pingCaller, .move (.insert 0)), (pingCaller, .send 0 0),
    (pingCallee, .move (.receive 0 0 pingCaller (onlyDatagram ⟨0, true, .ping (filledId 1)⟩))),
    (pingCallee, .move (.take 0)),
    (pingCallee, .move (.respond 0 (some (.pong (filledId 9))))), (pingCallee, .send 0 0),
    (pingCaller, .move (.receive 0 0 ("10.6.6.6", 66)
      (onlyDatagram ⟨0, false, .pong (filledId 6)⟩))),
    (pingCaller, .move (.receive 0 0 pingCallee (onlyDatagram ⟨0, false, .pong (filledId 9)⟩))),
    (pingCaller, .move (.take 0)), (pingCaller, .move (.take 0)),
    (pingCaller, .move (.onward (.welcome 0 1))), (pingCaller, .move (.onward (.deliver 0))),
    (pingCaller, .move (.onward (.finish 0 false)))]

def pingHonest (x : Addr) : Prop := x = pingCaller ∨ x = pingCallee

theorem answers_were_given_ping :
    (⟨pingCaller, 0, .ping (filledId 1)⟩, some (.pong (filledId 9))) ∈
      (((Net.new pingContacts fun _ => 0).run pingRun).parties pingCallee).answers := by
  have hlegal : Legal pingHonest pingServers (.new pingContacts fun _ => 0) pingRun := by
    refine ⟨⟨Or.inl rfl, by simp [Allowed, Sendable, pingTable]⟩, ⟨Or.inl rfl, trivial⟩,
      ⟨Or.inl rfl, trivial⟩,
      ⟨Or.inl rfl, trivial⟩, ⟨Or.inr rfl, fun _ => ?_⟩, ⟨Or.inr rfl, trivial⟩,
      ⟨Or.inr rfl, fun r hr => ?_⟩, ⟨Or.inr rfl, trivial⟩, ⟨Or.inl rfl, fun h => ?_⟩,
      ⟨Or.inl rfl, fun _ => ?_⟩, ⟨Or.inl rfl, trivial⟩, ⟨Or.inl rfl, trivial⟩,
      ⟨Or.inl rfl, trivial⟩, ⟨Or.inl rfl, trivial⟩, ⟨Or.inl rfl, trivial⟩, trivial⟩
    · decide +kernel
    · have hr' : r = ⟨pingCaller, 0, .ping (filledId 1)⟩ := by
        refine Option.some.inj (hr.symm.trans ?_)
        decide +kernel
      subst hr'
      refine ⟨⟨(pingContacts pingCallee).router, (), rfl⟩, fun message hm => ?_⟩
      obtain rfl := Option.some.inj hm
      simp [Sendable, pingTable]
    · rcases h with h | h <;> exact absurd h (by decide)
    · decide +kernel
  have hfew : Few pingHonest ((Net.new pingContacts fun _ => 0).run pingRun) := by
    rintro x (rfl | rfl)
    · decide +kernel
    · decide +kernel
  have hended : (((Net.new pingContacts fun _ => 0).run pingRun).parties
      pingCaller).endpoint.calls[0]? = some ⟨0, pingCallee, .ping (filledId 1),
        .ended (some (.pong (filledId 9))), [.pong (filledId 9)], 0⟩ := by
    decide +kernel
  exact ((answers_were_given pingHonest pingServers pingContacts (fun _ => 0) _
    ⟨pingRun, hlegal, rfl⟩ hfew).1 pingCaller (Or.inl rfl) 0 _ _ hended rfl (Or.inr rfl)).1

end

end AuthKademlia.Properties
