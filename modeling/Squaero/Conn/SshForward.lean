import Mathlib.Data.List.Nodup
import Squaero.Lib.Relay

/-!
# The forwarding thread of a tunnel

One thread serves the listener and every forwarded connection of a tunnel. What the sockets and the channels answer is
not up to it: a `Round` lists the answers of one turn of its loop, `none` stands for answers no call gives or for a
loop that they leave unfinished. A socket is named by the number of sockets accepted before it, and a channel by the
number of channels opened before it.
-/

namespace Squaero.Conn.SshForward

open Squaero.Lib.Relay

/-- `FWD_BUF`. -/
def fwdBuf : ℕ := 16384

/-- `MAX_FORWARDS`. -/
def maxForwards : ℕ := 32

/-- `forward_t`: a buffer lists the bytes up to its `len`. -/
structure Forward where
  localSocket : ℕ
  chan : ℕ
  l2c : List UInt8 := []
  l2cOff : ℕ := 0
  c2l : List UInt8 := []
  c2lOff : ℕ := 0
  localEof : Bool := false
  chanEof : Bool := false

/-- What `recv` and `libssh2_channel_read` answer. -/
inductive Read
  | bytes (bytes : List UInt8)
  | zero
  | wouldBlock
  | error

/-- What `libssh2_channel_write` and `send` answer. -/
inductive Write
  | wrote (count : ℕ)
  | wouldBlock
  | error

/-- The answers to the calls of one pump: `eof` is that of `libssh2_channel_eof`. -/
structure Answers where
  recv : Read
  writes : List Write
  read : Read
  eof : Bool
  sends : List Write

/-- What the calls of the thread do to its sockets and channels. -/
inductive Event
  | accept (socket : ℕ)
  | channelOpen (socket chan : ℕ)
  | recv (socket : ℕ) (bytes : List UInt8)
  | recvEnd (socket : ℕ)
  | channelWrite (chan : ℕ) (bytes : List UInt8)
  | channelWriteError (chan : ℕ)
  | channelSendEof (chan : ℕ)
  | channelRead (chan : ℕ) (bytes : List UInt8)
  | channelEnd (chan : ℕ)
  | send (socket : ℕ) (bytes : List UInt8)
  | sendError (socket : ℕ)
  | channelFree (chan : ℕ)
  | closeSocket (socket : ℕ)
  | stop

/-- A part of the pump: the forward after it and what was done. -/
abbrev Part := Forward → Option (Forward × List Event)

/-- One part and then another. -/
def Part.next (part after : Part) : Part := fun f ↦
  (part f).bind fun done ↦ (after done.1).map fun last ↦ (last.1, done.2 ++ last.2)

/-! ## One pump -/

/-- local -> channel: fill the buffer. -/
def fillFromLocal (answer : Read) : Part := fun f ↦
  if f.localEof = false ∧ f.l2c = [] then
    match answer with
    | .bytes bytes =>
      if bytes ≠ [] ∧ bytes.length ≤ fwdBuf then
        some ({ f with l2cOff := 0, l2c := bytes }, [.recv f.localSocket bytes])
      else none
    | .zero => some ({ f with localEof := true }, [.recvEnd f.localSocket])
    | .wouldBlock => some (f, [])
    | .error => some ({ f with localEof := true }, [.recvEnd f.localSocket])
  else some (f, [])

/-- The loop that drains the buffer to the channel. -/
def writeLoop : List Write → Part
  | [], f => if f.l2cOff < f.l2c.length then none else some (f, [])
  | answer :: answers, f =>
    if f.l2cOff < f.l2c.length then
      match answer with
      | .wouldBlock => some (f, [])
      | .error => some ({ f with localEof := true, l2cOff := 0, l2c := [] }, [.channelWriteError f.chan])
      | .wrote count =>
        if f.l2cOff + count ≤ f.l2c.length then
          (writeLoop answers { f with l2cOff := f.l2cOff + count }).map fun last ↦
            (last.1, .channelWrite f.chan ((f.l2c.drop f.l2cOff).take count) :: last.2)
        else none
    else some (f, [])

/-- Fully drained to the channel: free the buffer. -/
def writeReset : Part := fun f ↦
  if f.l2cOff = f.l2c.length then
    some ({ f with l2cOff := 0, l2c := [] }, if f.localEof then [.channelSendEof f.chan] else [])
  else some (f, [])

/-- channel -> local: read from the channel. -/
def fillFromChannel (answer : Read) (eof : Bool) : Part := fun f ↦
  if f.c2l = [] ∧ f.chanEof = false then
    match answer with
    | .bytes bytes =>
      if bytes ≠ [] ∧ bytes.length ≤ fwdBuf then
        some ({ f with c2lOff := 0, c2l := bytes }, [.channelRead f.chan bytes])
      else none
    | .zero => if eof then some ({ f with chanEof := true }, [.channelEnd f.chan]) else some (f, [])
    | .wouldBlock => some (f, [])
    | .error => some ({ f with chanEof := true }, [.channelEnd f.chan])
  else some (f, [])

/-- The loop that drains the buffer to the local socket. -/
def sendLoop : List Write → Part
  | [], f => if f.c2lOff < f.c2l.length then none else some (f, [])
  | answer :: answers, f =>
    if f.c2lOff < f.c2l.length then
      match answer with
      | .wouldBlock => some (f, [])
      -- the local side is gone
      | .error | .wrote 0 => some ({ f with chanEof := true, c2lOff := 0, c2l := [] }, [.sendError f.localSocket])
      | .wrote (count + 1) =>
        if f.c2lOff + (count + 1) ≤ f.c2l.length then
          (sendLoop answers { f with c2lOff := f.c2lOff + (count + 1) }).map fun last ↦
            (last.1, .send f.localSocket ((f.c2l.drop f.c2lOff).take (count + 1)) :: last.2)
        else none
    else some (f, [])

/-- Fully drained to the local socket: free the buffer. -/
def sendReset : Part := fun f ↦
  if f.c2lOff = f.c2l.length then some ({ f with c2lOff := 0, c2l := [] }, []) else some (f, [])

/-- `forward_drop`. -/
def forwardDrop (f : Forward) : List Event := [.channelFree f.chan, .closeSocket f.localSocket]

/-- Both directions are drained and closed. -/
def Forward.closed (f : Forward) : Bool :=
  f.localEof && f.chanEof && f.l2c.length == f.l2cOff && f.c2l.length == f.c2lOff

/-- Both directions of a pump. -/
def pumpBoth (answers : Answers) : Part :=
  (fillFromLocal answers.recv).next <| (writeLoop answers.writes).next <| writeReset.next <|
    (fillFromChannel answers.read answers.eof).next <| (sendLoop answers.sends).next sendReset

/-- `forward_pump`: nothing for a forward that is fully closed. -/
def forwardPump (answers : Answers) (f : Forward) : Option (Option Forward × List Event) :=
  (pumpBoth answers f).map fun done ↦
    if done.1.closed then (none, done.2 ++ forwardDrop done.1) else (some done.1, done.2)

/-! ## The loop -/

/-- `forwards[i] = forwards[nfwd - 1]` and one forward less. -/
def compactAt (forwards : List Forward) (i : ℕ) : List Forward :=
  match forwards.getLast? with
  | some last => (forwards.set i last).dropLast
  | none => forwards

/-- Pump every forward from `i` on; compact out the ones that closed. -/
def pumpAll : List Answers → ℕ → List Forward → Option (List Forward × List Event)
  | [], i, forwards => if i < forwards.length then none else some (forwards, [])
  | answers :: more, i, forwards =>
    match forwards[i]? with
    | none => some (forwards, [])
    | some f =>
      (forwardPump answers f).bind fun done ↦
        match done.1 with
        | some g => (pumpAll more (i + 1) (forwards.set i g)).map fun last ↦ (last.1, done.2 ++ last.2)
        | none => (pumpAll more i (compactAt forwards i)).map fun last ↦ (last.1, done.2 ++ last.2)

/-- What `accept` and `libssh2_channel_direct_tcpip` answer when the listener is readable. -/
inductive Accept
  | failed
  | refused
  | opened

/-- One turn of the loop: `select` is interrupted, or returns with the listener readable or not. -/
inductive Round
  | interrupted
  | ready (listener : Option Accept) (pumps : List Answers)

/-- The thread's own data, how many sockets and channels it was given, and what it did. -/
structure Forwarding where
  forwards : List Forward := []
  accepted : ℕ := 0
  channels : ℕ := 0
  trace : List Event := []

/-- Accept a new local connection and open a channel for it. -/
def acceptOne (t : Forwarding) : Option Accept → Forwarding
  | none => t
  | some answer =>
    if t.forwards.length < maxForwards then
      match answer with
      | .failed => t
      | .refused =>
        { t with
          accepted := t.accepted + 1
          trace := t.trace ++ [.accept t.accepted, .closeSocket t.accepted] }
      | .opened =>
        { forwards := t.forwards ++ [{ localSocket := t.accepted, chan := t.channels }]
          accepted := t.accepted + 1
          channels := t.channels + 1
          trace := t.trace ++ [.accept t.accepted, .channelOpen t.accepted t.channels] }
    else t

def serveRound (t : Forwarding) : Round → Option Forwarding
  | .interrupted => some t
  | .ready listener pumps =>
    let t := acceptOne t listener
    (pumpAll pumps 0 t.forwards).map fun last ↦ { t with forwards := last.1, trace := t.trace ++ last.2 }

/-- `forward_thread`: the rounds until it is told to stop or `select` fails, and the forwards left are dropped. -/
def forwardThread (rounds : List Round) : Option Forwarding :=
  (rounds.foldlM serveRound {}).map fun t ↦
    { t with forwards := [], trace := t.trace ++ .stop :: t.forwards.flatMap forwardDrop }

/-! ## What one connection sees -/

/-- The move that an event is between a socket and a channel. -/
def moveOf (socket chan : ℕ) : Event → Option (Move UInt8)
  | .recv s bytes => if s = socket then some (.up (.take bytes)) else none
  | .recvEnd s => if s = socket then some (.up .close) else none
  | .channelWrite c bytes => if c = chan then some (.up (.give bytes)) else none
  | .channelWriteError c => if c = chan then some (.up .lose) else none
  | .channelSendEof c => if c = chan then some (.up .tell) else none
  | .channelRead c bytes => if c = chan then some (.down (.take bytes)) else none
  | .channelEnd c => if c = chan then some (.down .close) else none
  | .send s bytes => if s = socket then some (.down (.give bytes)) else none
  | .sendError s => if s = socket then some (.down .lose) else none
  | .channelFree c => if c = chan then some (.release .sink) else none
  | .closeSocket s => if s = socket then some (.release .source) else none
  | .stop => some .shutdown
  | .accept _ => none
  | .channelOpen _ _ => none

def project (socket chan : ℕ) (trace : List Event) : List (Move UInt8) := trace.filterMap (moveOf socket chan)

/-- The forward and the relay between its two ends stand alike. -/
structure Matches (f : Forward) (duplex : Duplex UInt8) : Prop where
  up : duplex.up.queue = f.l2c.drop f.l2cOff
  upEnded : duplex.up.ended = f.localEof
  down : duplex.down.queue = f.c2l.drop f.c2lOff
  downEnded : duplex.down.ended = f.chanEof
  held : duplex.released = []

/-- The trace takes the relay between the forward's two ends to where the forward stands. -/
def Follows (f : Forward) (trace : List Event) : Prop :=
  ∃ duplex, Duplex.Reaches fwdBuf (project f.localSocket f.chan trace) duplex ∧ Matches f duplex

/-- The event is one of a pump of this forward. -/
def Event.OfPump (f : Forward) : Event → Prop
  | .recv s _ => s = f.localSocket
  | .recvEnd s => s = f.localSocket
  | .send s _ => s = f.localSocket
  | .sendError s => s = f.localSocket
  | .channelWrite c _ => c = f.chan
  | .channelWriteError c => c = f.chan
  | .channelSendEof c => c = f.chan
  | .channelRead c _ => c = f.chan
  | .channelEnd c => c = f.chan
  | _ => False

/-- A part keeps the forward on its own two ends and does to them what the relay allows. -/
def Part.Sound (part : Part) : Prop :=
  ∀ ⦃f g : Forward⦄ ⦃trace events : List Event⦄, Follows f trace → part f = some (g, events) →
    g.localSocket = f.localSocket ∧ g.chan = f.chan ∧ (∀ event ∈ events, event.OfPump f) ∧ Follows g (trace ++ events)

variable {f g : Forward} {trace events : List Event} {event : Event} {move : Move UInt8} {socket chan : ℕ}
  {part after : Part}

theorem project_append (socket chan : ℕ) (trace events : List Event) :
    project socket chan (trace ++ events) = project socket chan trace ++ project socket chan events :=
  List.filterMap_append

theorem Part.Sound.next (h : part.Sound) (h' : after.Sound) : (part.next after).Sound := by
  intro f last trace events hfollows hpart
  simp only [Part.next, Option.bind_eq_some_iff, Option.map_eq_some_iff, Prod.mk.injEq] at hpart
  obtain ⟨done, hdone, done', hdone', rfl, rfl⟩ := hpart
  obtain ⟨hsocket, hchan, hevents, hmiddle⟩ := h hfollows hdone
  obtain ⟨hsocket', hchan', hevents', hlast⟩ := h' hmiddle hdone'
  refine ⟨hsocket'.trans hsocket, hchan'.trans hchan, fun event hevent ↦ ?_, List.append_assoc _ _ _ ▸ hlast⟩
  rcases List.mem_append.1 hevent with hevent | hevent
  · exact hevents event hevent
  · have hof := hevents' event hevent
    cases event <;> simp_all [Event.OfPump]

/-- A forward that nothing is done to follows on. -/
theorem Follows.of_nil (h : Follows f trace) (hg : g = f) :
    g.localSocket = f.localSocket ∧ g.chan = f.chan ∧ (∀ event ∈ ([] : List Event), event.OfPump f) ∧
      Follows g (trace ++ []) := by
  subst hg
  exact ⟨rfl, rfl, by simp, by simpa using h⟩

/-- One event, and the move that it is. -/
theorem Follows.one {duplex next : Duplex UInt8} {move : Move UInt8}
    (hreach : Duplex.Reaches fwdBuf (project f.localSocket f.chan trace) duplex)
    (hmove : moveOf f.localSocket f.chan event = some move) (hstep : Duplex.Step fwdBuf duplex move next)
    (hmatches : Matches g next) (hsocket : g.localSocket = f.localSocket) (hchan : g.chan = f.chan) :
    Follows g (trace ++ [event]) := by
  refine ⟨next, ?_, hmatches⟩
  rw [hsocket, hchan, project_append]
  have hone : project f.localSocket f.chan [event] = [move] := by simp [project, hmove]
  rw [hone]
  exact hreach.step hstep

/-- A forward after one event. -/
theorem Follows.of_one {duplex next : Duplex UInt8} {move : Move UInt8}
    (hreach : Duplex.Reaches fwdBuf (project f.localSocket f.chan trace) duplex)
    (hmove : moveOf f.localSocket f.chan event = some move) (hstep : Duplex.Step fwdBuf duplex move next)
    (hmatches : Matches g next) (hsocket : g.localSocket = f.localSocket) (hchan : g.chan = f.chan)
    (hof : event.OfPump f) :
    g.localSocket = f.localSocket ∧ g.chan = f.chan ∧ (∀ e ∈ [event], e.OfPump f) ∧ Follows g (trace ++ [event]) :=
  ⟨hsocket, hchan, fun _ he ↦ List.mem_singleton.1 he ▸ hof, Follows.one hreach hmove hstep hmatches hsocket hchan⟩

theorem Matches.stepUp {duplex : Duplex UInt8} {act : Act UInt8} {line : Line UInt8} (h : Matches f duplex)
    (hstep : Line.Step fwdBuf duplex.up act line) : Duplex.Step fwdBuf duplex (.up act) { duplex with up := line } :=
  .up (by simp [h.held]) hstep

theorem Matches.stepDown {duplex : Duplex UInt8} {act : Act UInt8} {line : Line UInt8} (h : Matches f duplex)
    (hstep : Line.Step fwdBuf duplex.down act line) :
    Duplex.Step fwdBuf duplex (.down act) { duplex with down := line } :=
  .down (by simp [h.held]) hstep

theorem fillFromLocal_sound (answer : Read) : (fillFromLocal answer).Sound := by
  intro f g trace events hfollows hpart
  obtain ⟨duplex, hreach, hmatches⟩ := hfollows
  unfold fillFromLocal at hpart
  split_ifs at hpart with hfill
  · have hended : duplex.up.ended = false := hmatches.upEnded.trans hfill.1
    have hqueue : duplex.up.queue = [] := by rw [hmatches.up, hfill.2, List.drop_nil]
    have hclose : Duplex.Step fwdBuf duplex (.up .close) { duplex with up := { duplex.up with ended := true } } :=
      hmatches.stepUp (.close hended)
    cases answer with
    | bytes bytes =>
      dsimp only at hpart
      split_ifs at hpart with hbytes
      cases hpart
      refine Follows.of_one hreach (by simp [moveOf]) (hmatches.stepUp (.take hended hqueue hbytes.2)) ?_ rfl rfl rfl
      exact { hmatches with up := rfl }
    | zero =>
      cases hpart
      exact Follows.of_one hreach (by simp [moveOf]) hclose { hmatches with upEnded := rfl } rfl rfl rfl
    | wouldBlock =>
      cases hpart
      exact Follows.of_nil ⟨duplex, hreach, hmatches⟩ rfl
    | error =>
      cases hpart
      exact Follows.of_one hreach (by simp [moveOf]) hclose { hmatches with upEnded := rfl } rfl rfl rfl
  · cases hpart
    exact Follows.of_nil ⟨duplex, hreach, hmatches⟩ rfl

/-- What a loop still holds is what it hands over next and what it holds after that. -/
theorem drop_eq_take_append (buffer : List UInt8) (off count : ℕ) :
    buffer.drop off = (buffer.drop off).take count ++ buffer.drop (off + count) := by
  rw [← List.drop_drop, List.take_append_drop]

theorem writeLoop_sound (answers : List Write) : (writeLoop answers).Sound := by
  induction answers with
  | nil =>
    intro f g trace events hfollows hpart
    unfold writeLoop at hpart
    split_ifs at hpart
    cases hpart
    exact hfollows.of_nil rfl
  | cons answer answers ih =>
    intro f g trace events hfollows hpart
    unfold writeLoop at hpart
    split_ifs at hpart with hpending
    · obtain ⟨duplex, hreach, hmatches⟩ := hfollows
      cases answer with
      | wouldBlock =>
        cases hpart
        exact Follows.of_nil ⟨duplex, hreach, hmatches⟩ rfl
      | error =>
        cases hpart
        refine Follows.of_one hreach (by simp [moveOf]) (hmatches.stepUp .lose) ?_ rfl rfl rfl
        exact { hmatches with up := rfl, upEnded := rfl }
      | wrote count =>
        dsimp only at hpart
        split_ifs at hpart with hcount
        simp only [Option.map_eq_some_iff, Prod.mk.injEq] at hpart
        obtain ⟨last, hlast, rfl, rfl⟩ := hpart
        have hqueue := hmatches.up.trans (drop_eq_take_append f.l2c f.l2cOff count)
        have hmiddle : Follows { f with l2cOff := f.l2cOff + count }
            (trace ++ [.channelWrite f.chan ((f.l2c.drop f.l2cOff).take count)]) :=
          Follows.one hreach (by simp [moveOf]) (hmatches.stepUp (.give hqueue)) { hmatches with up := rfl } rfl rfl
        obtain ⟨hsocket, hchan, hevents, hafter⟩ := ih hmiddle hlast
        refine ⟨hsocket, hchan, fun event hevent ↦ ?_, by simpa using hafter⟩
        rcases List.mem_cons.1 hevent with rfl | hevent
        · rfl
        · exact hevents event hevent
    · cases hpart
      exact hfollows.of_nil rfl

theorem writeReset_sound : writeReset.Sound := by
  intro f g trace events hfollows hpart
  unfold writeReset at hpart
  split_ifs at hpart with hdrained heof
  · cases hpart
    obtain ⟨duplex, hreach, hmatches⟩ := hfollows
    have hqueue : duplex.up.queue = [] := by rw [hmatches.up, hdrained, List.drop_length]
    have hdone : duplex.up.Done := ⟨hmatches.upEnded.trans heof, hqueue⟩
    refine Follows.of_one hreach (by simp [moveOf]) (hmatches.stepUp (.tell hdone)) ?_ rfl rfl rfl
    exact { hmatches with up := hqueue }
  · cases hpart
    obtain ⟨duplex, hreach, hmatches⟩ := hfollows
    have hqueue : duplex.up.queue = [] := by rw [hmatches.up, hdrained, List.drop_length]
    refine ⟨rfl, rfl, by simp, duplex, by simpa using hreach, ?_⟩
    exact { hmatches with up := hqueue }
  · cases hpart
    exact hfollows.of_nil rfl

theorem fillFromChannel_sound (answer : Read) (eof : Bool) : (fillFromChannel answer eof).Sound := by
  intro f g trace events hfollows hpart
  obtain ⟨duplex, hreach, hmatches⟩ := hfollows
  unfold fillFromChannel at hpart
  by_cases hfill : f.c2l = [] ∧ f.chanEof = false
  · rw [if_pos hfill] at hpart
    have hended : duplex.down.ended = false := hmatches.downEnded.trans hfill.2
    have hqueue : duplex.down.queue = [] := by rw [hmatches.down, hfill.1, List.drop_nil]
    have hclose : Duplex.Step fwdBuf duplex (.down .close) { duplex with down := { duplex.down with ended := true } } :=
      hmatches.stepDown (.close hended)
    cases answer with
    | bytes bytes =>
      dsimp only at hpart
      split_ifs at hpart with hbytes
      cases hpart
      refine Follows.of_one hreach (by simp [moveOf]) (hmatches.stepDown (.take hended hqueue hbytes.2)) ?_ rfl rfl rfl
      exact { hmatches with down := rfl }
    | zero =>
      dsimp only at hpart
      split_ifs at hpart with heof
      · cases hpart
        exact Follows.of_one hreach (by simp [moveOf]) hclose { hmatches with downEnded := rfl } rfl rfl rfl
      · cases hpart
        exact Follows.of_nil ⟨duplex, hreach, hmatches⟩ rfl
    | wouldBlock =>
      cases hpart
      exact Follows.of_nil ⟨duplex, hreach, hmatches⟩ rfl
    | error =>
      cases hpart
      exact Follows.of_one hreach (by simp [moveOf]) hclose { hmatches with downEnded := rfl } rfl rfl rfl
  · rw [if_neg hfill] at hpart
    cases hpart
    exact Follows.of_nil ⟨duplex, hreach, hmatches⟩ rfl

theorem sendLoop_sound (answers : List Write) : (sendLoop answers).Sound := by
  induction answers with
  | nil =>
    intro f g trace events hfollows hpart
    unfold sendLoop at hpart
    split_ifs at hpart
    cases hpart
    exact hfollows.of_nil rfl
  | cons answer answers ih =>
    intro f g trace events hfollows hpart
    unfold sendLoop at hpart
    split_ifs at hpart with hpending
    · obtain ⟨duplex, hreach, hmatches⟩ := hfollows
      have hgone : Follows { f with chanEof := true, c2lOff := 0, c2l := [] } (trace ++ [.sendError f.localSocket]) :=
        Follows.one hreach (by simp [moveOf]) (hmatches.stepDown .lose) { hmatches with down := rfl, downEnded := rfl }
          rfl rfl
      cases answer with
      | wouldBlock =>
        cases hpart
        exact Follows.of_nil ⟨duplex, hreach, hmatches⟩ rfl
      | error =>
        cases hpart
        exact ⟨rfl, rfl, fun _ he ↦ List.mem_singleton.1 he ▸ rfl, hgone⟩
      | wrote count =>
        cases count with
        | zero =>
          cases hpart
          exact ⟨rfl, rfl, fun _ he ↦ List.mem_singleton.1 he ▸ rfl, hgone⟩
        | succ count =>
          dsimp only at hpart
          split_ifs at hpart with hcount
          simp only [Option.map_eq_some_iff, Prod.mk.injEq] at hpart
          obtain ⟨last, hlast, rfl, rfl⟩ := hpart
          have hqueue := hmatches.down.trans (drop_eq_take_append f.c2l f.c2lOff (count + 1))
          have hmiddle : Follows { f with c2lOff := f.c2lOff + (count + 1) }
              (trace ++ [.send f.localSocket ((f.c2l.drop f.c2lOff).take (count + 1))]) :=
            Follows.one hreach (by simp [moveOf]) (hmatches.stepDown (.give hqueue)) { hmatches with down := rfl } rfl rfl
          obtain ⟨hsocket, hchan, hevents, hafter⟩ := ih hmiddle hlast
          refine ⟨hsocket, hchan, fun event hevent ↦ ?_, by simpa using hafter⟩
          rcases List.mem_cons.1 hevent with rfl | hevent
          · rfl
          · exact hevents event hevent
    · cases hpart
      exact hfollows.of_nil rfl

theorem sendReset_sound : sendReset.Sound := by
  intro f g trace events hfollows hpart
  unfold sendReset at hpart
  split_ifs at hpart with hdrained
  · cases hpart
    obtain ⟨duplex, hreach, hmatches⟩ := hfollows
    refine ⟨rfl, rfl, by simp, duplex, by simpa using hreach, ?_⟩
    exact { hmatches with down := by rw [hmatches.down, hdrained, List.drop_length, List.drop_nil] }
  · cases hpart
    exact hfollows.of_nil rfl

/-- Both directions of a pump do what the relay between the two ends allows. -/
theorem pumpBoth_sound (answers : Answers) : (pumpBoth answers).Sound :=
  (fillFromLocal_sound _).next <| (writeLoop_sound _).next <| writeReset_sound.next <|
    (fillFromChannel_sound _ _).next <| (sendLoop_sound _).next sendReset_sound

/-! ## One pump as a whole -/

/-- The event is on the forward's two ends. -/
def Event.Of (f : Forward) (event : Event) : Prop := event.OfPump f ∨ event ∈ forwardDrop f

def Event.isOpen : Event → Bool
  | .channelOpen _ _ => true
  | _ => false

def Event.isFree : Event → Bool
  | .channelFree _ => true
  | _ => false

/-- The trace releases both ends of the relay between the socket and the channel. -/
def Dropped (socket chan : ℕ) (trace : List Event) : Prop :=
  ∃ duplex, Duplex.Reaches fwdBuf (project socket chan trace) duplex ∧ duplex.released = [.source, .sink]

theorem Event.Of.moveOf_eq_none (h : event.Of f) (hsocket : f.localSocket ≠ socket) (hchan : f.chan ≠ chan) :
    moveOf socket chan event = none := by
  rcases h with h | h
  · cases event <;> simp_all [Event.OfPump, moveOf]
  · rcases List.mem_pair.1 h with rfl | rfl <;> simp [moveOf, hsocket, hchan]

theorem Event.Of.isOpen_eq_false (h : event.Of f) : event.isOpen = false := by
  rcases h with h | h
  · cases event <;> simp_all [Event.OfPump, Event.isOpen]
  · rcases List.mem_pair.1 h with rfl | rfl <;> rfl

theorem Event.OfPump.isFree_eq_false (h : event.OfPump f) : event.isFree = false := by
  cases event <;> simp_all [Event.OfPump, Event.isFree]

/-- What is done to another forward leaves the relay of this one alone. -/
theorem project_eq_nil (h : ∀ event ∈ events, event.Of f) (hsocket : f.localSocket ≠ socket) (hchan : f.chan ≠ chan) :
    project socket chan events = [] :=
  List.filterMap_eq_nil_iff.2 fun event hevent ↦ (h event hevent).moveOf_eq_none hsocket hchan

/-- Both ends of a forward are released once its relay allows it. -/
theorem Follows.dropped {duplex : Duplex UInt8}
    (hreach : Duplex.Reaches fwdBuf (project f.localSocket f.chan trace) duplex) (hheld : duplex.released = [])
    (hdone : duplex.stopping = true ∨ duplex.up.Done ∧ duplex.down.Done) :
    Dropped f.localSocket f.chan (trace ++ forwardDrop f) := by
  have hsink : Duplex.Step fwdBuf duplex (.release .sink) { duplex with released := .sink :: duplex.released } :=
    .release (by simp [hheld]) hdone
  have hsource : Duplex.Step fwdBuf { duplex with released := .sink :: duplex.released } (.release .source)
      { duplex with released := .source :: .sink :: duplex.released } :=
    .release (by simp [hheld]) hdone
  refine ⟨{ duplex with released := .source :: .sink :: duplex.released }, ?_, by simp [hheld]⟩
  have hmoves : project f.localSocket f.chan (forwardDrop f) = [.release .sink] ++ [.release .source] := by
    simp [project, forwardDrop, moveOf]
  rw [project_append, hmoves, ← List.append_assoc]
  exact (hreach.step hsink).step hsource

/-- One pump keeps the forward on its relay, or releases both ends of it. -/
theorem forwardPump_spec {answers : Answers} {result : Option Forward} (hfollows : Follows f trace)
    (hpump : forwardPump answers f = some (result, events)) :
    (∀ event ∈ events, event.Of f) ∧
      ((∃ g, result = some g ∧ g.localSocket = f.localSocket ∧ g.chan = f.chan ∧ Follows g (trace ++ events) ∧
          events.countP Event.isFree = 0) ∨
        result = none ∧ Dropped f.localSocket f.chan (trace ++ events) ∧ events.countP Event.isFree = 1) := by
  simp only [forwardPump, Option.map_eq_some_iff] at hpump
  obtain ⟨⟨g, pumped⟩, hboth, hpump⟩ := hpump
  obtain ⟨hsocket, hchan, hevents, hafter⟩ := pumpBoth_sound answers hfollows hboth
  have hfree : pumped.countP Event.isFree = 0 := by
    rw [List.countP_eq_zero]
    intro event hevent
    simp [(hevents event hevent).isFree_eq_false]
  by_cases hclosed : g.closed = true
  · rw [if_pos hclosed] at hpump
    cases hpump
    obtain ⟨duplex, hreach, hmatches⟩ := hafter
    simp only [Forward.closed, Bool.and_eq_true, beq_iff_eq] at hclosed
    obtain ⟨⟨⟨hlocal, hchannel⟩, hl2c⟩, hc2l⟩ := hclosed
    have hup : duplex.up.Done := ⟨hmatches.upEnded.trans hlocal, by rw [hmatches.up, ← hl2c, List.drop_length]⟩
    have hdown : duplex.down.Done := ⟨hmatches.downEnded.trans hchannel, by rw [hmatches.down, ← hc2l, List.drop_length]⟩
    have hdropped := Follows.dropped hreach hmatches.held (.inr ⟨hup, hdown⟩)
    refine ⟨fun event hevent ↦ ?_, .inr ⟨rfl, ?_, ?_⟩⟩
    · rcases List.mem_append.1 hevent with hevent | hevent
      · exact .inl (hevents event hevent)
      · refine .inr ?_
        rwa [forwardDrop, hsocket, hchan] at hevent
    · rwa [hsocket, hchan, List.append_assoc] at hdropped
    · rw [List.countP_append, hfree]
      rfl
  · rw [if_neg hclosed] at hpump
    cases hpump
    exact ⟨fun event hevent ↦ .inl (hevents event hevent), .inl ⟨g, rfl, hsocket, hchan, hafter, hfree⟩⟩

/-! ## The forwards of the thread -/

theorem compactAt_append (before : List Forward) (f : Forward) (after : List Forward) (last : Forward) :
    compactAt (before ++ f :: (after ++ [last])) before.length = before ++ last :: after := by
  have hlast : (before ++ f :: (after ++ [last])).getLast? = some last := by
    rw [← List.cons_append, ← List.append_assoc, List.getLast?_concat]
  have hset : (before ++ f :: (after ++ [last])).set before.length last = before ++ last :: after ++ [last] := by
    simp
  simp only [compactAt, hlast, hset, List.dropLast_concat]

/-- What the array holds besides the forward at an index, which stays when that one is updated or compacted out. -/
theorem exists_others {forwards : List Forward} {i : ℕ} (h : forwards[i]? = some f) :
    ∃ others, forwards.Perm (f :: others) ∧ (∀ g, (forwards.set i g).Perm (g :: others)) ∧
      (compactAt forwards i).Perm others := by
  obtain ⟨hi, hf⟩ := List.getElem?_eq_some_iff.1 h
  have hsplit : forwards = forwards.take i ++ f :: forwards.drop (i + 1) := by
    rw [← hf, List.cons_getElem_drop_succ, List.take_append_drop]
  have hlength : (forwards.take i).length = i := List.length_take_of_le hi.le
  generalize forwards.take i = before at hsplit hlength
  generalize forwards.drop (i + 1) = after at hsplit
  subst hsplit hlength
  refine ⟨before ++ after, List.perm_middle, fun g ↦ ?_, ?_⟩
  · rw [List.set_append_right _ _ le_rfl, Nat.sub_self, List.set_cons_zero]
    exact List.perm_middle
  · rcases after.eq_nil_or_concat with rfl | ⟨init, last, rfl⟩
    · simp [compactAt]
    · rw [List.concat_eq_append, compactAt_append, ← List.append_assoc]
      exact List.perm_middle.trans (List.perm_append_singleton last _).symm

/-- The socket that an event is on, once it is there. -/
def Event.onSocket : Event → Option ℕ
  | .recv s _ => some s
  | .recvEnd s => some s
  | .send s _ => some s
  | .sendError s => some s
  | .closeSocket s => some s
  | _ => none

/-- The channel that an event is on, once it is there. -/
def Event.onChan : Event → Option ℕ
  | .channelWrite c _ => some c
  | .channelWriteError c => some c
  | .channelSendEof c => some c
  | .channelRead c _ => some c
  | .channelEnd c => some c
  | .channelFree c => some c
  | _ => none

/-- How the thread's data stand to what it has done, when it has been given so many sockets and channels. -/
structure Standing (forwards : List Forward) (accepted channels : ℕ) (trace : List Event) : Prop where
  live : ∀ f ∈ forwards, Follows f trace ∧ .channelOpen f.localSocket f.chan ∈ trace
  sockets : (forwards.map Forward.localSocket).Nodup
  chans : (forwards.map Forward.chan).Nodup
  opened : ∀ s c, .channelOpen s c ∈ trace →
    (∃ f ∈ forwards, f.localSocket = s ∧ f.chan = c) ∨ Dropped s c trace
  paired : ∀ s c s' c', .channelOpen s c ∈ trace → .channelOpen s' c' ∈ trace → (s = s' ↔ c = c')
  accepts : ∀ s, .accept s ∈ trace → (∃ c, .channelOpen s c ∈ trace) ∨ .closeSocket s ∈ trace
  given : ∀ s c, .channelOpen s c ∈ trace → s < accepted ∧ c < channels
  numbered : ∀ event ∈ trace, (∀ s ∈ event.onSocket, s < accepted) ∧ ∀ c ∈ event.onChan, c < channels
  counted : trace.countP Event.isOpen = trace.countP Event.isFree + forwards.length
  bounded : ∀ before, before <+: trace → before.countP Event.isOpen ≤ before.countP Event.isFree + maxForwards
  room : forwards.length ≤ maxForwards
  running : .stop ∉ trace

variable {forwards others : List Forward} {accepted channels : ℕ}

theorem Event.Of.numbered (h : event.Of f) :
    (∀ s ∈ event.onSocket, s = f.localSocket) ∧ ∀ c ∈ event.onChan, c = f.chan := by
  rcases h with h | h
  · cases event <;> simp_all [Event.OfPump, Event.onSocket, Event.onChan]
  · rcases List.mem_pair.1 h with rfl | rfl <;> simp [Event.onSocket, Event.onChan]

/-- What a trace goes on with opens nothing: the bound stays. -/
theorem bounded_append (h : ∀ before, before <+: trace →
      before.countP Event.isOpen ≤ before.countP Event.isFree + maxForwards)
    (hevents : events.countP Event.isOpen = 0) {before : List Event} (hbefore : before <+: trace ++ events) :
    before.countP Event.isOpen ≤ before.countP Event.isFree + maxForwards := by
  rcases List.prefix_or_prefix_of_prefix hbefore (List.prefix_append trace events) with hbefore | ⟨more, rfl⟩
  · exact h before hbefore
  · have hmore := (List.prefix_append_right_inj trace).1 hbefore
    have hopen : more.countP Event.isOpen = 0 :=
      Nat.le_zero.1 (hevents ▸ hmore.sublist.countP_le)
    have htrace := h trace List.prefix_rfl
    rw [List.countP_append, List.countP_append, hopen]
    omega

theorem Follows.of_other (h : Follows g trace) (hevents : ∀ event ∈ events, event.Of f)
    (hsocket : f.localSocket ≠ g.localSocket) (hchan : f.chan ≠ g.chan) : Follows g (trace ++ events) := by
  obtain ⟨duplex, hreach, hmatches⟩ := h
  refine ⟨duplex, ?_, hmatches⟩
  rwa [project_append, project_eq_nil hevents hsocket hchan, List.append_nil]

theorem Dropped.of_other (h : Dropped socket chan trace) (hevents : ∀ event ∈ events, event.Of f)
    (hsocket : f.localSocket ≠ socket) (hchan : f.chan ≠ chan) : Dropped socket chan (trace ++ events) := by
  obtain ⟨duplex, hreach, hreleased⟩ := h
  refine ⟨duplex, ?_, hreleased⟩
  rwa [project_append, project_eq_nil hevents hsocket hchan, List.append_nil]

/-- One pump leaves the thread's data standing to its trace. -/
theorem Standing.pump {after : List Forward} {answers : Answers} {result : Option Forward}
    (h : Standing forwards accepted channels trace) (hbefore : forwards.Perm (f :: others))
    (hpump : forwardPump answers f = some (result, events)) (hafter : after.Perm (result.toList ++ others)) :
    Standing after accepted channels (trace ++ events) := by
  have hf : f ∈ forwards := hbefore.mem_iff.2 List.mem_cons_self
  obtain ⟨hevents, hresult⟩ := forwardPump_spec (h.live f hf).1 hpump
  have hsockets := (hbefore.map Forward.localSocket).nodup_iff.1 h.sockets
  have hchans := (hbefore.map Forward.chan).nodup_iff.1 h.chans
  simp only [List.map_cons, List.nodup_cons] at hsockets hchans
  have hopen : events.countP Event.isOpen = 0 :=
    List.countP_eq_zero.2 fun event hevent ↦ by simp [(hevents event hevent).isOpen_eq_false]
  have hmem : ∀ s c, .channelOpen s c ∈ trace ++ events ↔ .channelOpen s c ∈ trace := fun s c ↦ by
    rw [List.mem_append, or_iff_left]
    intro hevent
    exact absurd (hevents _ hevent).isOpen_eq_false (by simp [Event.isOpen])
  have hother : ∀ g ∈ others, Follows g (trace ++ events) ∧ .channelOpen g.localSocket g.chan ∈ trace ++ events := by
    intro g hg
    have hlive := h.live g (hbefore.mem_iff.2 (List.mem_cons_of_mem f hg))
    refine ⟨hlive.1.of_other hevents ?_ ?_, (hmem _ _).2 hlive.2⟩
    · exact fun heq ↦ hsockets.1 (heq ▸ List.mem_map_of_mem hg)
    · exact fun heq ↦ hchans.1 (heq ▸ List.mem_map_of_mem hg)
  have hgiven : .channelOpen f.localSocket f.chan ∈ trace := (h.live f hf).2
  -- the pairs that are not this forward's stay where they were
  have hpairs : ∀ s c, .channelOpen s c ∈ trace →
      s = f.localSocket ∧ c = f.chan ∨ (∃ g ∈ others, g.localSocket = s ∧ g.chan = c) ∨ Dropped s c (trace ++ events) := by
    intro s c hopened
    by_cases hsame : s = f.localSocket
    · exact .inl ⟨hsame, ((h.paired _ _ _ _ hopened hgiven).1 hsame)⟩
    · refine .inr ((h.opened s c hopened).imp ?_ fun hdropped ↦ ?_)
      · rintro ⟨g, hg, rfl, rfl⟩
        rcases List.mem_cons.1 (hbefore.mem_iff.1 hg) with rfl | hg
        · exact absurd rfl hsame
        · exact ⟨g, hg, rfl, rfl⟩
      · exact hdropped.of_other hevents (Ne.symm hsame) fun heq ↦ hsame ((h.paired _ _ _ _ hopened hgiven).2 heq.symm)
  have hnumbered : ∀ event ∈ trace ++ events,
      (∀ s ∈ event.onSocket, s < accepted) ∧ ∀ c ∈ event.onChan, c < channels := by
    intro event hevent
    rcases List.mem_append.1 hevent with hevent | hevent
    · exact h.numbered event hevent
    · have hown := (hevents event hevent).numbered
      have hfirst := h.given _ _ hgiven
      exact ⟨fun s hs ↦ hown.1 s hs ▸ hfirst.1, fun c hc ↦ hown.2 c hc ▸ hfirst.2⟩
  have haccepts : ∀ s, .accept s ∈ trace ++ events →
      (∃ c, .channelOpen s c ∈ trace ++ events) ∨ .closeSocket s ∈ trace ++ events := by
    intro s hs
    rcases List.mem_append.1 hs with hs | hs
    · exact (h.accepts s hs).imp (fun ⟨c, hc⟩ ↦ ⟨c, List.mem_append_left _ hc⟩) (List.mem_append_left _)
    · rcases hevents _ hs with hs | hs
      · exact absurd hs (by simp [Event.OfPump])
      · exact absurd hs (by simp [forwardDrop])
  have hstop : .stop ∉ trace ++ events := by
    rw [List.mem_append, not_or]
    refine ⟨h.running, fun hevent ↦ ?_⟩
    rcases hevents _ hevent with hevent | hevent
    · exact hevent
    · exact absurd hevent (by simp [forwardDrop])
  have hgivens : ∀ s c, .channelOpen s c ∈ trace ++ events → s < accepted ∧ c < channels :=
    fun s c hopened ↦ h.given s c ((hmem s c).1 hopened)
  have hlength := hbefore.length_eq
  rw [List.length_cons] at hlength
  have hroom := h.room
  have hcounted := h.counted
  rcases hresult with ⟨g, rfl, hsocket, hchan, hfollows, hfree⟩ | ⟨rfl, hdropped, hfree⟩
  · have hperm : after.Perm (g :: others) := hafter
    refine ⟨fun k hk ↦ ?_, ?_, ?_, fun s c hopened ↦ ?_, ?_, haccepts, hgivens, hnumbered, ?_, ?_, ?_, hstop⟩
    · rcases List.mem_cons.1 (hperm.mem_iff.1 hk) with rfl | hk
      · exact ⟨hfollows, (hmem _ _).2 (by rwa [hsocket, hchan])⟩
      · exact hother k hk
    · rw [(hperm.map Forward.localSocket).nodup_iff, List.map_cons, List.nodup_cons, hsocket]
      exact hsockets
    · rw [(hperm.map Forward.chan).nodup_iff, List.map_cons, List.nodup_cons, hchan]
      exact hchans
    · rcases hpairs s c ((hmem s c).1 hopened) with ⟨rfl, rfl⟩ | ⟨k, hk, hpair⟩ | hgone
      · exact .inl ⟨g, hperm.mem_iff.2 List.mem_cons_self, hsocket, hchan⟩
      · exact .inl ⟨k, hperm.mem_iff.2 (List.mem_cons_of_mem g hk), hpair⟩
      · exact .inr hgone
    · exact fun s c s' c' hopened hopened' ↦ h.paired s c s' c' ((hmem _ _).1 hopened) ((hmem _ _).1 hopened')
    · rw [List.countP_append, List.countP_append, hopen, hfree, hperm.length_eq, List.length_cons]
      omega
    · exact fun before ↦ bounded_append h.bounded hopen
    · rw [hperm.length_eq, List.length_cons]
      omega
  · have hperm : after.Perm others := hafter
    refine ⟨fun k hk ↦ hother k (hperm.mem_iff.1 hk), ?_, ?_, fun s c hopened ↦ ?_, ?_, haccepts, hgivens, hnumbered, ?_, ?_, ?_, hstop⟩
    · exact (hperm.map Forward.localSocket).nodup_iff.2 hsockets.2
    · exact (hperm.map Forward.chan).nodup_iff.2 hchans.2
    · rcases hpairs s c ((hmem s c).1 hopened) with ⟨rfl, rfl⟩ | ⟨k, hk, hpair⟩ | hgone
      · exact .inr hdropped
      · exact .inl ⟨k, hperm.mem_iff.2 hk, hpair⟩
      · exact .inr hgone
    · exact fun s c s' c' hopened hopened' ↦ h.paired s c s' c' ((hmem _ _).1 hopened) ((hmem _ _).1 hopened')
    · rw [List.countP_append, List.countP_append, hopen, hfree, hperm.length_eq]
      omega
    · exact fun before ↦ bounded_append h.bounded hopen
    · rw [hperm.length_eq]
      omega

/-- The loop over the forwards leaves the thread's data standing to its trace. -/
theorem Standing.pumpAll {after : List Forward} (more : List Answers) {i : ℕ}
    (h : Standing forwards accepted channels trace) (hpump : pumpAll more i forwards = some (after, events)) :
    Standing after accepted channels (trace ++ events) := by
  induction more generalizing i forwards trace events with
  | nil =>
    unfold SshForward.pumpAll at hpump
    split_ifs at hpump
    cases hpump
    simpa using h
  | cons answers more ih =>
    unfold SshForward.pumpAll at hpump
    cases hf : forwards[i]? with
    | none =>
      simp only [hf, Option.some.injEq, Prod.mk.injEq] at hpump
      obtain ⟨rfl, rfl⟩ := hpump
      simpa using h
    | some f =>
      obtain ⟨others, hbefore, hset, hcompact⟩ := exists_others hf
      simp only [hf, Option.bind_eq_some_iff] at hpump
      obtain ⟨⟨result, done⟩, hdone, hpump⟩ := hpump
      cases result with
      | some g =>
        simp only [Option.map_eq_some_iff, Prod.mk.injEq] at hpump
        obtain ⟨last, hlast, rfl, rfl⟩ := hpump
        rw [← List.append_assoc]
        exact ih (h.pump hbefore hdone (hset g)) hlast
      | none =>
        simp only [Option.map_eq_some_iff, Prod.mk.injEq] at hpump
        obtain ⟨last, hlast, rfl, rfl⟩ := hpump
        rw [← List.append_assoc]
        exact ih (h.pump hbefore hdone hcompact) hlast

/-- Nothing was done on a socket and a channel that are not there yet. -/
theorem Standing.project_fresh (h : Standing forwards accepted channels trace) :
    project accepted channels trace = [] := by
  refine List.filterMap_eq_nil_iff.2 fun event hevent ↦ ?_
  obtain ⟨hsocket, hchan⟩ := h.numbered event hevent
  have hstop : event ≠ .stop := fun heq ↦ h.running (heq ▸ hevent)
  have hs : accepted ∉ event.onSocket := fun hs ↦ (hsocket _ hs).false
  have hc : channels ∉ event.onChan := fun hc ↦ (hchan _ hc).false
  cases event <;> simp_all [moveOf, Event.onSocket, Event.onChan]

theorem project_accept_refused (h : socket < accepted) :
    project socket chan [.accept accepted, .closeSocket accepted] = [] := by
  simp [project, moveOf, h.ne']

theorem project_accept_opened (s c : ℕ) : project socket chan [.accept s, .channelOpen s c] = [] := rfl

/-- A connection whose channel could not be opened is closed, and nothing else is touched. -/
theorem Standing.refused (h : Standing forwards accepted channels trace) :
    Standing forwards (accepted + 1) channels (trace ++ [.accept accepted, .closeSocket accepted]) := by
  have hopened : ∀ s c, .channelOpen s c ∈ trace ++ [.accept accepted, .closeSocket accepted] →
      .channelOpen s c ∈ trace := by simp
  constructor
  · intro f hf
    obtain ⟨⟨duplex, hreach, hmatches⟩, hmem⟩ := h.live f hf
    refine ⟨⟨duplex, ?_, hmatches⟩, List.mem_append_left _ hmem⟩
    rwa [project_append, project_accept_refused (h.given _ _ hmem).1, List.append_nil]
  · exact h.sockets
  · exact h.chans
  · intro s c hmem
    refine (h.opened s c (hopened s c hmem)).imp id fun ⟨duplex, hreach, hreleased⟩ ↦ ⟨duplex, ?_, hreleased⟩
    rwa [project_append, project_accept_refused (h.given _ _ (hopened s c hmem)).1, List.append_nil]
  · exact fun s c s' c' hmem hmem' ↦ h.paired s c s' c' (hopened s c hmem) (hopened s' c' hmem')
  · intro s hs
    rcases List.mem_append.1 hs with hs | hs
    · exact (h.accepts s hs).imp (fun ⟨c, hc⟩ ↦ ⟨c, List.mem_append_left _ hc⟩) (List.mem_append_left _)
    · obtain rfl : s = accepted := by simpa using hs
      exact .inr (by simp)
  · exact fun s c hmem ↦ ⟨(h.given s c (hopened s c hmem)).1.trans (Nat.lt_succ_self _), (h.given s c (hopened s c hmem)).2⟩
  · intro event hevent
    rcases List.mem_append.1 hevent with hevent | hevent
    · exact ⟨fun s hs ↦ ((h.numbered event hevent).1 s hs).trans (Nat.lt_succ_self _), (h.numbered event hevent).2⟩
    · rcases List.mem_pair.1 hevent with rfl | rfl <;> simp [Event.onSocket, Event.onChan]
  · simpa [List.countP_cons, Event.isOpen, Event.isFree] using h.counted
  · exact fun before ↦ bounded_append h.bounded rfl
  · exact h.room
  · simpa using h.running

/-- A connection with a channel is forwarded from the start. -/
theorem Standing.opening (h : Standing forwards accepted channels trace) (hroom : forwards.length < maxForwards) :
    Standing (forwards ++ [{ localSocket := accepted, chan := channels }]) (accepted + 1) (channels + 1)
      (trace ++ [.accept accepted, .channelOpen accepted channels]) := by
  have hopened : ∀ s c, .channelOpen s c ∈ trace ++ [.accept accepted, .channelOpen accepted channels] ↔
      .channelOpen s c ∈ trace ∨ s = accepted ∧ c = channels := by simp
  constructor
  · intro f hf
    rcases List.mem_append.1 hf with hf | hf
    · obtain ⟨⟨duplex, hreach, hmatches⟩, hmem⟩ := h.live f hf
      refine ⟨⟨duplex, ?_, hmatches⟩, List.mem_append_left _ hmem⟩
      rwa [project_append, project_accept_opened, List.append_nil]
    · obtain rfl := List.mem_singleton.1 hf
      refine ⟨⟨{}, ?_, ⟨rfl, rfl, rfl, rfl, rfl⟩⟩, by simp⟩
      rw [project_append, project_accept_opened, List.append_nil, h.project_fresh]
      exact .start
  · rw [List.map_append, List.map_singleton, List.nodup_append]
    refine ⟨h.sockets, List.nodup_singleton _, fun s hs s' hs' ↦ ?_⟩
    obtain ⟨f, hf, rfl⟩ := List.mem_map.1 hs
    exact List.mem_singleton.1 hs' ▸ (h.given _ _ (h.live f hf).2).1.ne
  · rw [List.map_append, List.map_singleton, List.nodup_append]
    refine ⟨h.chans, List.nodup_singleton _, fun c hc c' hc' ↦ ?_⟩
    obtain ⟨f, hf, rfl⟩ := List.mem_map.1 hc
    exact List.mem_singleton.1 hc' ▸ (h.given _ _ (h.live f hf).2).2.ne
  · intro s c hmem
    rcases (hopened s c).1 hmem with hmem | ⟨rfl, rfl⟩
    · refine (h.opened s c hmem).imp (fun ⟨f, hf, hpair⟩ ↦ ⟨f, List.mem_append_left _ hf, hpair⟩) ?_
      rintro ⟨duplex, hreach, hreleased⟩
      refine ⟨duplex, ?_, hreleased⟩
      rwa [project_append, project_accept_opened, List.append_nil]
    · exact .inl ⟨_, List.mem_append_right _ (List.mem_singleton_self _), rfl, rfl⟩
  · intro s c s' c' hmem hmem'
    rcases (hopened s c).1 hmem with hold | ⟨rfl, rfl⟩ <;> rcases (hopened s' c').1 hmem' with hold' | ⟨rfl, rfl⟩
    · exact h.paired s c s' c' hold hold'
    · exact iff_of_false (h.given s c hold).1.ne (h.given s c hold).2.ne
    · exact iff_of_false (h.given s' c' hold').1.ne' (h.given s' c' hold').2.ne'
    · exact iff_of_true rfl rfl
  · intro s hs
    rcases List.mem_append.1 hs with hs | hs
    · exact (h.accepts s hs).imp (fun ⟨c, hc⟩ ↦ ⟨c, List.mem_append_left _ hc⟩) (List.mem_append_left _)
    · obtain rfl : s = accepted := by simpa using hs
      exact .inl ⟨channels, by simp⟩
  · intro s c hmem
    rcases (hopened s c).1 hmem with hmem | ⟨rfl, rfl⟩
    · exact ⟨(h.given s c hmem).1.trans (Nat.lt_succ_self _), (h.given s c hmem).2.trans (Nat.lt_succ_self _)⟩
    · exact ⟨Nat.lt_succ_self _, Nat.lt_succ_self _⟩
  · intro event hevent
    rcases List.mem_append.1 hevent with hevent | hevent
    · exact ⟨fun s hs ↦ ((h.numbered event hevent).1 s hs).trans (Nat.lt_succ_self _),
        fun c hc ↦ ((h.numbered event hevent).2 c hc).trans (Nat.lt_succ_self _)⟩
    · rcases List.mem_pair.1 hevent with rfl | rfl <;> simp [Event.onSocket, Event.onChan]
  · have hcounted := h.counted
    simp only [List.countP_append, List.countP_cons, List.countP_nil, Event.isOpen, Event.isFree, List.length_append,
      List.length_singleton]
    simp only [Bool.false_eq_true, if_false, if_true]
    omega
  · intro before hbefore
    rcases List.prefix_or_prefix_of_prefix hbefore (List.prefix_append trace _) with hbefore | ⟨more, rfl⟩
    · exact h.bounded before hbefore
    · have hmore := ((List.prefix_append_right_inj trace).1 hbefore).sublist.countP_le (p := Event.isOpen)
      have hone : [Event.accept accepted, .channelOpen accepted channels].countP Event.isOpen = 1 := rfl
      have hcounted := h.counted
      rw [List.countP_append, List.countP_append]
      omega
  · rw [List.length_append, List.length_singleton]
    exact hroom
  · simpa using h.running

theorem Standing.acceptOne {t : Forwarding} (h : Standing t.forwards t.accepted t.channels t.trace)
    (listener : Option Accept) :
    Standing (acceptOne t listener).forwards (acceptOne t listener).accepted (acceptOne t listener).channels
      (acceptOne t listener).trace := by
  cases listener with
  | none => exact h
  | some answer =>
    by_cases hroom : t.forwards.length < maxForwards
    · simp only [SshForward.acceptOne, if_pos hroom]
      cases answer with
      | failed => exact h
      | refused => exact h.refused
      | opened => exact h.opening hroom
    · simp only [SshForward.acceptOne, if_neg hroom]
      exact h

/-- One turn of the loop leaves the thread's data standing to its trace. -/
theorem Standing.serveRound {t u : Forwarding} {round : Round} (h : Standing t.forwards t.accepted t.channels t.trace)
    (hround : serveRound t round = some u) : Standing u.forwards u.accepted u.channels u.trace := by
  cases round with
  | interrupted =>
    cases hround
    exact h
  | ready listener pumps =>
    simp only [SshForward.serveRound, Option.map_eq_some_iff] at hround
    obtain ⟨⟨after, events⟩, hpump, rfl⟩ := hround
    exact (h.acceptOne listener).pumpAll pumps hpump

theorem standing_nil : Standing [] 0 0 [] := by
  constructor <;> simp

/-- Any number of turns do. -/
theorem Standing.rounds {t u : Forwarding} (rounds : List Round)
    (h : Standing t.forwards t.accepted t.channels t.trace) (hrounds : rounds.foldlM SshForward.serveRound t = some u) :
    Standing u.forwards u.accepted u.channels u.trace := by
  induction rounds generalizing t with
  | nil =>
    cases hrounds
    exact h
  | cons round rounds ih =>
    simp only [List.foldlM_cons, Option.bind_eq_bind, Option.bind_eq_some_iff] at hrounds
    obtain ⟨middle, hround, hrounds⟩ := hrounds
    exact ih (h.serveRound hround) hrounds

/-! ## The thread as a whole -/

/-- The trace takes the relay between the forward's two ends to where it is being shut down. -/
def Stopped (f : Forward) (trace : List Event) : Prop :=
  ∃ duplex, Duplex.Reaches fwdBuf (project f.localSocket f.chan trace) duplex ∧ duplex.released = [] ∧
    duplex.stopping = true

theorem Follows.stop (h : Follows f trace) : Stopped f (trace ++ [.stop]) := by
  obtain ⟨duplex, hreach, hmatches⟩ := h
  refine ⟨{ duplex with stopping := true }, ?_, hmatches.held, rfl⟩
  rw [project_append]
  exact hreach.step .shutdown

theorem Dropped.stop (h : Dropped socket chan trace) : Dropped socket chan (trace ++ [.stop]) := by
  obtain ⟨duplex, hreach, hreleased⟩ := h
  refine ⟨{ duplex with stopping := true }, ?_, hreleased⟩
  rw [project_append]
  exact hreach.step .shutdown

/-- Dropping the forwards that are left releases the ends of every connection. -/
theorem dropped_of_stopped (hsockets : (forwards.map Forward.localSocket).Nodup)
    (hchans : (forwards.map Forward.chan).Nodup) (hstopped : ∀ f ∈ forwards, Stopped f trace)
    (h : (∃ f ∈ forwards, f.localSocket = socket ∧ f.chan = chan) ∨
      Dropped socket chan trace ∧ ∀ f ∈ forwards, f.localSocket ≠ socket ∧ f.chan ≠ chan) :
    Dropped socket chan (trace ++ forwards.flatMap forwardDrop) := by
  induction forwards generalizing trace with
  | nil =>
    obtain ⟨f, hf, -⟩ | ⟨hdropped, -⟩ := h
    · exact absurd hf List.not_mem_nil
    · simpa using hdropped
  | cons f forwards ih =>
    simp only [List.map_cons, List.nodup_cons] at hsockets hchans
    have hdrop : ∀ event ∈ forwardDrop f, event.Of f := fun event hevent ↦ .inr hevent
    have hrest : ∀ g ∈ forwards, f.localSocket ≠ g.localSocket ∧ f.chan ≠ g.chan := fun g hg ↦
      ⟨fun heq ↦ hsockets.1 (heq ▸ List.mem_map_of_mem hg), fun heq ↦ hchans.1 (heq ▸ List.mem_map_of_mem hg)⟩
    have hstill : ∀ g ∈ forwards, Stopped g (trace ++ forwardDrop f) := by
      intro g hg
      obtain ⟨duplex, hreach, hduplex⟩ := hstopped g (List.mem_cons_of_mem f hg)
      refine ⟨duplex, ?_, hduplex⟩
      rwa [project_append, project_eq_nil hdrop (hrest g hg).1 (hrest g hg).2, List.append_nil]
    rw [List.flatMap_cons, ← List.append_assoc]
    refine ih hsockets.2 hchans.2 hstill ?_
    obtain ⟨g, hg, rfl, rfl⟩ | ⟨hdropped, hothers⟩ := h
    · rcases List.mem_cons.1 hg with rfl | hg
      · obtain ⟨duplex, hreach, hheld, hstopping⟩ := hstopped g List.mem_cons_self
        exact .inr ⟨Follows.dropped hreach hheld (.inl hstopping),
          fun k hk ↦ ⟨(hrest k hk).1.symm, (hrest k hk).2.symm⟩⟩
      · exact .inl ⟨g, hg, rfl, rfl⟩
    · have hf := hothers f List.mem_cons_self
      exact .inr ⟨hdropped.of_other hdrop hf.1 hf.2, fun k hk ↦ hothers k (List.mem_cons_of_mem f hk)⟩

/-- The bytes that an event receives from a socket. -/
def Event.received (socket : ℕ) : Event → List UInt8
  | .recv s bytes => if s = socket then bytes else []
  | _ => []

def Event.written (chan : ℕ) : Event → List UInt8
  | .channelWrite c bytes => if c = chan then bytes else []
  | _ => []

def Event.readFrom (chan : ℕ) : Event → List UInt8
  | .channelRead c bytes => if c = chan then bytes else []
  | _ => []

def Event.sent (socket : ℕ) : Event → List UInt8
  | .send s bytes => if s = socket then bytes else []
  | _ => []

def received (socket : ℕ) (trace : List Event) : List UInt8 := trace.flatMap (Event.received socket)

def written (chan : ℕ) (trace : List Event) : List UInt8 := trace.flatMap (Event.written chan)

def readFrom (chan : ℕ) (trace : List Event) : List UInt8 := trace.flatMap (Event.readFrom chan)

def sent (socket : ℕ) (trace : List Event) : List UInt8 := trace.flatMap (Event.sent socket)

/-- What a connection may rely on at the end of a trace: the bytes arrive in order, at most a buffer of them is held back
unless an end broke, the server is told of the end when it has everything, the ends are closed when everything was
delivered, and nothing is done on an end that was closed. -/
structure Relayed (socket chan : ℕ) (trace : List Event) : Prop where
  toServer : written chan trace <+: received socket trace
  toClient : sent socket trace <+: readFrom chan trace
  heldUp : .channelWriteError chan ∉ trace → (received socket trace).length ≤ (written chan trace).length + fwdBuf
  heldDown : .sendError socket ∉ trace → (readFrom chan trace).length ≤ (sent socket trace).length + fwdBuf
  told : ∀ before, trace = before ++ [.channelSendEof chan] → .channelWriteError chan ∉ before →
    written chan before = received socket before
  closed : ∀ before, trace = before ++ [.channelFree chan] ∨ trace = before ++ [.closeSocket socket] → .stop ∉ before →
    (.channelWriteError chan ∉ before → written chan before = received socket before) ∧
      (.sendError socket ∉ before → sent socket before = readFrom chan before)
  unused : ∀ before event, trace = before ++ [event] →
    (chan ∈ event.onChan → .channelFree chan ∉ before) ∧ (socket ∈ event.onSocket → .closeSocket socket ∉ before)

theorem flatMap_project {line : Move UInt8 → Option (Act UInt8)} {items : Act UInt8 → List UInt8}
    {bytes : Event → List UInt8}
    (h : ∀ event, bytes event = ((moveOf socket chan event).bind line).elim [] items) (trace : List Event) :
    ((project socket chan trace).filterMap line).flatMap items = trace.flatMap bytes := by
  induction trace with
  | nil => rfl
  | cons event trace ih =>
    rw [List.flatMap_cons, h event, ← ih, project, List.filterMap_cons]
    cases hmove : moveOf socket chan event with
    | none => simp [project]
    | some move => cases hact : line move <;> simp [project, hact]

theorem taken_ups (socket chan : ℕ) (trace : List Event) :
    taken ((project socket chan trace).filterMap Move.ups) = received socket trace :=
  flatMap_project (fun event ↦ by cases event <;> grind [Event.received, moveOf, Move.ups, Act.taken]) trace

theorem taken_downs (socket chan : ℕ) (trace : List Event) :
    taken ((project socket chan trace).filterMap Move.downs) = readFrom chan trace :=
  flatMap_project (fun event ↦ by cases event <;> grind [Event.readFrom, moveOf, Move.downs, Act.taken]) trace

theorem given_ups (socket chan : ℕ) (trace : List Event) :
    given ((project socket chan trace).filterMap Move.ups) = written chan trace :=
  flatMap_project (fun event ↦ by cases event <;> grind [Event.written, moveOf, Move.ups, Act.given]) trace

theorem given_downs (socket chan : ℕ) (trace : List Event) :
    given ((project socket chan trace).filterMap Move.downs) = sent socket trace :=
  flatMap_project (fun event ↦ by cases event <;> grind [Event.sent, moveOf, Move.downs, Act.given]) trace

theorem mem_project {move : Move UInt8} (h : move ∈ project socket chan trace) :
    ∃ event ∈ trace, moveOf socket chan event = some move :=
  List.mem_filterMap.1 h

/-- A sink breaks only where a call on it failed. -/
theorem lose_ups (h : .channelWriteError chan ∉ trace) : .lose ∉ (project socket chan trace).filterMap Move.ups := by
  intro hlose
  obtain ⟨move, hmove, hups⟩ := List.mem_filterMap.1 hlose
  obtain ⟨event, hevent, hmove⟩ := mem_project hmove
  cases event <;> grind [moveOf, Move.ups]

theorem lose_downs (h : .sendError socket ∉ trace) :
    .lose ∉ (project socket chan trace).filterMap Move.downs := by
  intro hlose
  obtain ⟨move, hmove, hdowns⟩ := List.mem_filterMap.1 hlose
  obtain ⟨event, hevent, hmove⟩ := mem_project hmove
  cases event <;> grind [moveOf, Move.downs]

theorem shutdown_mem (h : Move.shutdown ∈ project socket chan trace) : .stop ∈ trace := by
  obtain ⟨event, hevent, hmove⟩ := mem_project h
  cases event <;> grind [moveOf]

theorem release_sink_mem : Move.release .sink ∈ project socket chan trace ↔ .channelFree chan ∈ trace := by
  constructor
  · intro h
    obtain ⟨event, hevent, hmove⟩ := mem_project h
    cases event <;> grind [moveOf]
  · exact fun h ↦ List.mem_filterMap.2 ⟨_, h, by simp [moveOf]⟩

theorem release_source_mem : Move.release .source ∈ project socket chan trace ↔ .closeSocket socket ∈ trace := by
  constructor
  · intro h
    obtain ⟨event, hevent, hmove⟩ := mem_project h
    cases event <;> grind [moveOf]
  · exact fun h ↦ List.mem_filterMap.2 ⟨_, h, by simp [moveOf]⟩

/-- What is done on either end is a move made on that end. -/
theorem exists_move (socket chan : ℕ) (h : chan ∈ event.onChan ∨ socket ∈ event.onSocket) :
    ∃ move, moveOf socket chan event = some move ∧ (chan ∈ event.onChan → move.uses = some .sink) ∧
      (socket ∈ event.onSocket → move.uses = some .source) := by
  cases event <;> simp_all [Event.onChan, Event.onSocket, moveOf, Move.uses, Act.usesUp, Act.usesDown]

theorem project_concat (h : moveOf socket chan event = some move) :
    project socket chan (trace ++ [event]) = project socket chan trace ++ [move] := by
  rw [project_append]
  simp [project, h]

/-- A line that is done has given all it took, unless its sink broke. -/
theorem given_eq_taken {line : Line UInt8} {acts : List (Act UInt8)} (h : Line.Keeps fwdBuf acts line)
    (hdone : line.Done) (hlose : .lose ∉ acts) : given acts = taken acts := by
  rw [h.whole_of_not_lose hlose, hdone.2, List.append_nil]

/-- What the relay between two ends allows is what a connection may rely on. -/
theorem relayed_of_reaches {duplex : Duplex UInt8}
    (h : Duplex.Reaches fwdBuf (project socket chan trace) duplex) : Relayed socket chan trace := by
  obtain ⟨hup, hdown⟩ := h.keeps
  constructor
  · simpa only [given_ups, taken_ups] using hup.inOrder
  · simpa only [given_downs, taken_downs] using hdown.inOrder
  · intro herror
    have hwhole := hup.whole_of_not_lose (lose_ups herror)
    rw [given_ups, taken_ups] at hwhole
    rw [hwhole, List.length_append]
    exact Nat.add_le_add_left hup.bounded _
  · intro herror
    have hwhole := hdown.whole_of_not_lose (lose_downs herror)
    rw [given_downs, taken_downs] at hwhole
    rw [hwhole, List.length_append]
    exact Nat.add_le_add_left hdown.bounded _
  · rintro before rfl herror
    have htell : moveOf socket chan (.channelSendEof chan) = some (.up .tell) := by simp [moveOf]
    rw [project_concat htell] at h
    obtain ⟨earlier, hearlier, hdone⟩ := h.done_of_tell
    simpa only [given_ups, taken_ups] using given_eq_taken hearlier.keeps.1 hdone (lose_ups herror)
  · intro before hlast hstop
    have hrelease : ∃ end_, project socket chan trace = project socket chan before ++ [.release end_] := by
      rcases hlast with rfl | rfl
      · exact ⟨.sink, project_concat (by simp [moveOf])⟩
      · exact ⟨.source, project_concat (by simp [moveOf])⟩
    obtain ⟨end_, hrelease⟩ := hrelease
    rw [hrelease] at h
    obtain ⟨earlier, hearlier, hdoneUp, hdoneDown⟩ := h.done_of_release fun hshutdown ↦ hstop (shutdown_mem hshutdown)
    constructor
    · intro herror
      simpa only [given_ups, taken_ups] using given_eq_taken hearlier.keeps.1 hdoneUp (lose_ups herror)
    · intro herror
      simpa only [given_downs, taken_downs] using given_eq_taken hearlier.keeps.2 hdoneDown (lose_downs herror)
  · rintro before event rfl
    constructor
    · intro hon hfree
      obtain ⟨move, hmove, hsink, -⟩ := exists_move socket chan (.inl hon)
      rw [project_concat hmove] at h
      exact h.not_uses (release_sink_mem.2 hfree) (hsink hon)
    · intro hon hclose
      obtain ⟨move, hmove, -, hsource⟩ := exists_move socket chan (.inr hon)
      rw [project_concat hmove] at h
      exact h.not_uses (release_source_mem.2 hclose) (hsource hon)

/-- In every run of the thread each connection may rely on its relay at every moment, no socket and no channel serves
two connections, everything is closed at the end, and no more connections are open at once than there are slots. -/
theorem forwardThread_relays (rounds : List Round) {t : Forwarding} (h : forwardThread rounds = some t) :
    (∀ s c, .channelOpen s c ∈ t.trace → ∀ before, before <+: t.trace → Relayed s c before) ∧
      (∀ s c s' c', .channelOpen s c ∈ t.trace → .channelOpen s' c' ∈ t.trace → (s = s' ↔ c = c')) ∧
      (∀ s, .accept s ∈ t.trace → .closeSocket s ∈ t.trace) ∧
      (∀ s c, .channelOpen s c ∈ t.trace → .channelFree c ∈ t.trace) ∧
      ∀ before, before <+: t.trace → before.countP Event.isOpen ≤ before.countP Event.isFree + maxForwards := by
  simp only [forwardThread, Option.map_eq_some_iff] at h
  obtain ⟨u, hrounds, rfl⟩ := h
  have hstanding := Standing.rounds rounds standing_nil hrounds
  have hstop : u.trace ++ .stop :: u.forwards.flatMap forwardDrop =
      u.trace ++ [.stop] ++ u.forwards.flatMap forwardDrop := by simp
  have hclosing : ∀ event ∈ Event.stop :: u.forwards.flatMap forwardDrop, event.isOpen = false := by
    intro event hevent
    rcases List.mem_cons.1 hevent with rfl | hevent
    · rfl
    · obtain ⟨f, -, hevent⟩ := List.mem_flatMap.1 hevent
      exact Event.Of.isOpen_eq_false (.inr hevent)
  have hopened : ∀ s c, .channelOpen s c ∈ u.trace ++ .stop :: u.forwards.flatMap forwardDrop →
      .channelOpen s c ∈ u.trace := by
    intro s c hmem
    refine (List.mem_append.1 hmem).resolve_right fun hmem ↦ ?_
    exact absurd (hclosing _ hmem) (by simp [Event.isOpen])
  have hdropped : ∀ s c, .channelOpen s c ∈ u.trace →
      Dropped s c (u.trace ++ .stop :: u.forwards.flatMap forwardDrop) := by
    intro s c hmem
    rw [hstop]
    refine dropped_of_stopped hstanding.sockets hstanding.chans (fun f hf ↦ (hstanding.live f hf).1.stop) ?_
    by_cases hlive : ∃ f ∈ u.forwards, f.localSocket = s ∧ f.chan = c
    · exact .inl hlive
    · refine .inr ⟨((hstanding.opened s c hmem).resolve_left hlive).stop, fun f hf ↦ ?_⟩
      have hpaired := hstanding.paired _ _ _ _ (hstanding.live f hf).2 hmem
      exact ⟨fun heq ↦ hlive ⟨f, hf, heq, hpaired.1 heq⟩, fun heq ↦ hlive ⟨f, hf, hpaired.2 heq, heq⟩⟩
  refine ⟨fun s c hmem before hbefore ↦ ?_, fun s c s' c' hmem hmem' ↦ ?_, fun s hs ↦ ?_, fun s c hmem ↦ ?_, fun before ↦ ?_⟩
  · obtain ⟨duplex, hreach, -⟩ := hdropped s c (hopened s c hmem)
    obtain ⟨after, hafter⟩ := hbefore
    dsimp only at hafter
    rw [← hafter, project_append] at hreach
    obtain ⟨earlier, hearlier⟩ := hreach.of_append
    exact relayed_of_reaches hearlier
  · exact hstanding.paired s c s' c' (hopened s c hmem) (hopened s' c' hmem')
  · rcases List.mem_append.1 hs with hs | hs
    · rcases hstanding.accepts s hs with ⟨c, hmem⟩ | hclose
      · obtain ⟨duplex, hreach, hreleased⟩ := hdropped s c hmem
        exact release_source_mem.1 (hreach.released_iff.1 (by simp [hreleased]))
      · exact List.mem_append_left _ hclose
    · rcases List.mem_cons.1 hs with hs | hs
      · cases hs
      · obtain ⟨f, -, hs⟩ := List.mem_flatMap.1 hs
        exact absurd hs (by simp [forwardDrop])
  · obtain ⟨duplex, hreach, hreleased⟩ := hdropped s c (hopened s c hmem)
    exact release_sink_mem.1 (hreach.released_iff.1 (by simp [hreleased]))
  · exact bounded_append hstanding.bounded (List.countP_eq_zero.2 fun event hevent ↦ by simp [hclosing event hevent])

/-- A request is forwarded in two writes, the answer comes back, and then both sides end. -/
theorem forwardThread_relays_oneConnection :
    written 0 [.accept 0, .channelOpen 0 0, .recv 0 [1, 2, 3], .channelWrite 0 [1, 2], .channelRead 0 [9],
        .send 0 [9], .channelWrite 0 [3]] <+:
      received 0 [.accept 0, .channelOpen 0 0, .recv 0 [1, 2, 3], .channelWrite 0 [1, 2], .channelRead 0 [9],
        .send 0 [9], .channelWrite 0 [3]] :=
  ((forwardThread_relays
    (t := ⟨[], 1, 1, [.accept 0, .channelOpen 0 0, .recv 0 [1, 2, 3], .channelWrite 0 [1, 2], .channelRead 0 [9],
      .send 0 [9], .channelWrite 0 [3], .recvEnd 0, .channelSendEof 0, .channelEnd 0, .channelFree 0, .closeSocket 0,
      .stop]⟩)
    [.ready (some .opened) [⟨.bytes [1, 2, 3], [.wrote 2, .wouldBlock], .bytes [9], false, [.wrote 1]⟩],
      .interrupted, .ready none [⟨.wouldBlock, [.wrote 1], .wouldBlock, false, []⟩],
      .ready none [⟨.zero, [], .zero, true, []⟩]] rfl).1 0 0 (by simp) _
    ⟨[.recvEnd 0, .channelSendEof 0, .channelEnd 0, .channelFree 0, .closeSocket 0, .stop], rfl⟩).toServer

end Squaero.Conn.SshForward
