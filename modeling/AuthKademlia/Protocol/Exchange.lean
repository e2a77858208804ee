import AuthKademlia.Protocol.Pending
import AuthKademlia.Protocol.Transport
import AuthKademlia.Protocol.Wire

/-! # Nodes that call each other

The transport of the nodes at some addresses. A call becomes a frame and the frame
datagrams; datagrams that arrive become frames again, which answer a call or are requests
that a handler answers. Datagrams on the wire may get lost, come again and overtake each
other, and an address without such a node sends whatever it likes.

The steps are those between which other tasks of a node may run. What a handler does is
left to `dispatchMessage`; a request may also be dropped before, as a copy, for want of a
place or because the node stops. -/
namespace AuthKademlia.Protocol.Exchange
open AuthKademlia.Fragmentation AuthKademlia.Utils AuthKademlia.Storage AuthKademlia.Protocol
open AuthKademlia.Protocol.InProgress (Frame)
open AuthKademlia.Protocol.Pending AuthKademlia.Protocol.Wire

/-- A frame that `encode_frame` has cut into datagrams, of a call or an answer. -/
structure Encoded where
  dest : Addr
  fragId : UInt32
  frame : Frame
  call : Option Nat

def Encoded.datagrams [FrameCodec] (e : Encoded) : List Bytes :=
  encodeFragments e.fragId (serialize e.frame)

structure Request where
  peer : Addr
  msgId : Nat
  message : Message
  deriving DecidableEq

structure Party where
  endpoint : Endpoint
  receiver : Receiver Addr
  nextFragId : UInt32
  encoded : List Encoded
  /-- Frames that were read, until a worker looks what they are. -/
  inbox : List (Addr × Frame)
  /-- Requests being handled. -/
  requests : List Request
  /-- Requests that were handled, and what `dispatch_request` returned. -/
  answers : List (Request × Option Message)

namespace Party

def new (contacts : Contacts) (start : Instant) : Party :=
  ⟨.new contacts, ⟨∅, start⟩, 0, [], [], [], []⟩

/-- `encode_frame`, which numbers the frames it does not refuse. -/
def encode [FrameCodec] (p : Party) (dest : Addr) (frame : Frame) (call : Option Nat) :
    Option Party :=
  (encodeFrame p.nextFragId (serialize frame)).map fun _ =>
    { p with
      nextFragId := p.nextFragId + 1
      encoded := p.encoded ++ [⟨dest, p.nextFragId, frame, call⟩] }

def answer [FrameCodec] (p : Party) (r : Request) (response : Option Message) : Party :=
  match response with
  | some message => (p.encode r.peer ⟨r.msgId, false, message⟩ none).getD p
  | none => p

/-- The datagram number `n` of an encoded frame. Those of a call are sent, and sent again,
while it waits. -/
def datagram [FrameCodec] (p : Party) (j n : Nat) : Option (Addr × Bytes) :=
  match p.encoded[j]? with
  | some e =>
    if e.call.all fun i => (p.endpoint.calls[i]?).any fun c => c.phase = .waiting then
      (e.datagrams[n]?).map fun data => (e.dest, data)
    else none
  | none => none

end Party

/-- What a call does by itself, and what is done with an answer after it was accepted. -/
def onward : Pending.Move → Bool
  | .call _ _ | .insert _ | .response _ _ _ => false
  | .abandon _ | .welcome _ _ | .deliver _ | .finish _ _ | .giveUp _ _ | .removal _ | .meet _ =>
    true

inductive Move
  | call (peer : Addr) (request : Message)
  /-- The call encodes its frame. If that fails, it ends. -/
  | encode (i : Nat)
  | insert (i : Nat)
  | onward (m : Pending.Move)
  /-- A datagram, up to deserialization. -/
  | receive (gcNow now : Instant) (peer : Addr) (data : Bytes)
  /-- Another worker sweeps the reassembly map. -/
  | gc (now : Instant)
  | take (k : Nat)
  /-- A receipt for a request that carries a record. -/
  | receipt (k : Nat)
  | respond (k : Nat) (response : Option Message)
  | drop (k : Nat)

/-- A move that is not possible changes nothing. -/
def Party.move [FrameCodec] (p : Party) : Move → Party
  | .call peer request => { p with endpoint := p.endpoint.move (.call peer request) }
  | .encode i =>
    match p.endpoint.calls[i]? with
    | some c =>
      if c.phase = .opening ∧ p.encoded.all fun e => e.call ≠ some i then
        (p.encode c.peer ⟨c.msgId, true, c.request⟩ (some i)).getD
          { p with endpoint := p.endpoint.move (.abandon i) }
      else p
    | none => p
  | .insert i =>
    if p.encoded.any fun e => e.call = some i then
      { p with endpoint := p.endpoint.move (.insert i) }
    else p
  | .onward m => if onward m then { p with endpoint := p.endpoint.move m } else p
  | .receive gcNow now peer data =>
    let (how, receiver) := receiveDatagramEnd p.receiver gcNow now peer data
    { p with
      receiver
      inbox := p.inbox ++ ((how.payload.bind deserialize).map fun f => (peer, f)).toList }
  | .gc now => { p with receiver := gcReassembly p.receiver now }
  | .take k =>
    match p.inbox[k]? with
    | some (peer, f) =>
      let p := { p with inbox := p.inbox.eraseIdx k }
      if f.isRequest then { p with requests := p.requests ++ [⟨peer, f.msgId, f.message⟩] }
      else { p with endpoint := p.endpoint.move (.response peer f.msgId f.message) }
    | none => p
  | .receipt k =>
    match p.requests[k]? with
    | some r => if (carriedRecord r.message).isSome then p.answer r (some .received) else p
    | none => p
  | .respond k response =>
    match p.requests[k]? with
    | some r =>
      { p with
        requests := p.requests.eraseIdx k
        answers := p.answers ++ [(r, response)] }.answer r response
    | none => p
  | .drop k => { p with requests := p.requests.eraseIdx k }

/-! ## The network -/

structure Packet where
  source : Addr
  dest : Addr
  data : Bytes
  deriving DecidableEq

structure Net where
  parties : Addr → Party
  /-- All datagrams that were sent. -/
  wire : List Packet

inductive Action
  | move (m : Move)
  | send (j n : Nat)

namespace Net

def new (contacts : Addr → Contacts) (start : Addr → Instant) : Net :=
  ⟨fun x => .new (contacts x) (start x), []⟩

def act [FrameCodec] (net : Net) (x : Addr) : Action → Net
  | .move m => { net with parties := Function.update net.parties x ((net.parties x).move m) }
  | .send j n =>
    match (net.parties x).datagram j n with
    | some (dest, data) => { net with wire := net.wire ++ [⟨x, dest, data⟩] }
    | none => net

def run [FrameCodec] (net : Net) (acts : List (Addr × Action)) : Net :=
  acts.foldl (fun net a => net.act a.1 a.2) net

end Net

/-- What an action of the node at `x` takes from outside: messages are of the source's
types, the network does not forge the addresses of nodes, and handlers answer. -/
def Allowed [FrameCodec] (honest : Addr → Prop) (srv : Addr → Server) (net : Net) (x : Addr) :
    Action → Prop
  | .move (.call _ request) => Sendable request
  | .move (.receive _ _ peer data) => honest peer → ⟨peer, x, data⟩ ∈ net.wire
  | .move (.respond k response) => ∀ r, (net.parties x).requests[k]? = some r →
    (∃ t, (dispatchMessage (srv x) t r.peer r.message).Returns response) ∧
      ∀ message ∈ response, Sendable message
  | _ => True

/-- Actions of nodes, each allowed when it is taken. -/
def Legal [FrameCodec] (honest : Addr → Prop) (srv : Addr → Server) :
    Net → List (Addr × Action) → Prop
  | _, [] => True
  | net, (x, a) :: acts =>
    (honest x ∧ Allowed honest srv net x a) ∧ Legal honest srv (net.act x a) acts

/-- The network may be in this state after a run of its nodes. -/
def Reachable [FrameCodec] (honest : Addr → Prop) (srv : Addr → Server) (contacts : Addr → Contacts)
    (start : Addr → Instant) (net : Net) : Prop :=
  ∃ acts, Legal honest srv (.new contacts start) acts ∧ net = (Net.new contacts start).run acts

variable {honest : Addr → Prop} {srv : Addr → Server}

theorem legal_append [FrameCodec] {acts : List (Addr × Action)} {x : Addr} {a : Action} :
    ∀ {net : Net},
    Legal honest srv net (acts ++ [(x, a)]) →
      Legal honest srv net acts ∧ honest x ∧ Allowed honest srv (net.run acts) x a := by
  induction acts with
  | nil => exact fun h => ⟨trivial, h.1⟩
  | cons b acts ih =>
    intro net h
    obtain ⟨hlegal, hlast⟩ := ih h.2
    exact ⟨⟨h.1, hlegal⟩, hlast⟩

theorem run_append [FrameCodec] (net : Net) (acts : List (Addr × Action)) (x : Addr)
    (a : Action) :
    net.run (acts ++ [(x, a)]) = (net.run acts).act x a := by
  simp [Net.run]

/-! ## What an endpoint asks -/

/-- What a call is about does not change. -/
def what (c : CallState) : Nat × Addr × Message := (c.msgId, c.peer, c.request)

def asked (s : Endpoint) : List (Nat × Addr × Message) := s.calls.map what

theorem map_what_set {calls : List CallState} {i : Nat} {c c' : CallState}
    (hc : calls[i]? = some c) (hsame : what c' = what c) :
    (calls.set i c').map what = calls.map what := by
  rw [List.map_set, hsame]
  refine List.ext_getElem? fun j => ?_
  by_cases hj : i = j
  · subst hj
    have hi := (List.getElem?_eq_some_iff.mp hc).1
    rw [List.getElem?_set_self (by simpa using hi), List.getElem?_map, hc, Option.map_some]
  · rw [List.getElem?_set_ne hj]

theorem map_what_modify (calls : List CallState) (i : Nat) {f : CallState → CallState}
    (hsame : ∀ c, what (f c) = what c) : (calls.modify i f).map what = calls.map what := by
  refine List.ext_getElem? fun j => ?_
  rw [List.getElem?_map, List.getElem?_map, List.getElem?_modify]
  cases calls[j]? with
  | none => rfl
  | some c =>
    simp only [Option.map_some, Option.map_eq_map]
    split
    · rw [hsame]
    · rfl

theorem asked_endCall {s : Endpoint} {i : Nat} {c : CallState} (hc : s.calls[i]? = some c)
    (result : Option Message) (locked : Bool) :
    asked (s.endCall i c result locked) = asked s := by
  have hset : (s.calls.set i { c with phase := .ended result }).map what = s.calls.map what :=
    map_what_set hc rfl
  unfold Endpoint.endCall Endpoint.dropGuard
  split
  · exact hset
  · exact hset

/-- **Only a new call asks something new.** -/
theorem asked_move (s : Endpoint) (m : Pending.Move) :
    asked (s.move m) = asked s ++
      match m with
      | .call peer request => [(s.nextMsgId, peer, request)]
      | _ => [] := by
  have hsend : ∀ (message : Message) (c : CallState), what (c.send message) = what c := by
    intro message c
    unfold CallState.send
    split <;> rfl
  cases m with
  | call peer request => exact List.map_append
  | insert i | abandon i =>
    simp only [Endpoint.move, List.append_nil]
    split
    · rename_i c hc
      split
      · exact map_what_set hc rfl
      · rfl
    · rfl
  | response peer msgId message =>
    simp only [Endpoint.move, Endpoint.handleResponse, List.append_nil]
    split
    · split
      · split
        · exact map_what_modify _ _ fun c => rfl
        · rfl
      · rfl
    · split
      · split <;> rfl
      · rfl
  | welcome j now =>
    simp only [Endpoint.move, Endpoint.welcome, List.append_nil]
    split <;> rfl
  | deliver j =>
    simp only [Endpoint.move, Endpoint.deliver, List.append_nil]
    split
    · rfl
    · exact map_what_modify _ _ (hsend _)
    · rfl
  | finish i locked =>
    simp only [Endpoint.move, List.append_nil]
    split
    · rename_i c hc
      split
      · exact asked_endCall hc _ _
      · rfl
    · rfl
  | giveUp i locked =>
    simp only [Endpoint.move, List.append_nil]
    split
    · rename_i c hc
      split
      · exact asked_endCall hc _ _
      · rfl
    · rfl
  | removal j =>
    simp only [Endpoint.move, List.append_nil]
    split <;> rfl
  | meet contacts => exact (List.append_nil _).symm

end AuthKademlia.Protocol.Exchange
