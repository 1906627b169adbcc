import Mathlib.Data.List.Basic
import Mathlib.Data.List.Infix

/-!
# Relays

A `Line` takes items from a source and gives them to a sink, holding at most `cap` of them between. It takes only while
it holds nothing and its source has not ended, gives from the front of what it holds, and tells its sink of the end only
when it holds nothing more. A `Duplex` is two lines between one pair of ends; each end is released once, when both lines
are done or the whole is being shut down, and nobody uses it after that.
-/

namespace Squaero.Lib.Relay

universe u

variable {α : Type u}

/-! ## One direction -/

/-- What happens on a line: items taken or given, the source at its end, the sink broken, the sink told of the end. -/
inductive Act (α : Type u)
  | take (items : List α)
  | give (items : List α)
  | close
  | lose
  | tell

structure Line (α : Type u) where
  queue : List α := []
  ended : Bool := false
  lost : Bool := false

/-- Nothing is held and nothing more will come. -/
def Line.Done (line : Line α) : Prop := line.ended = true ∧ line.queue = []

/-- The items an act takes from the source. -/
def Act.taken : Act α → List α
  | .take items => items
  | _ => []

/-- The items an act gives to the sink. -/
def Act.given : Act α → List α
  | .give items => items
  | _ => []

def taken (acts : List (Act α)) : List α := acts.flatMap Act.taken

def given (acts : List (Act α)) : List α := acts.flatMap Act.given

variable (cap : ℕ)

inductive Line.Step : Line α → Act α → Line α → Prop
  | take {line : Line α} {items : List α} (hended : line.ended = false) (hqueue : line.queue = [])
      (hcap : items.length ≤ cap) : Line.Step line (.take items) { line with queue := items }
  | give {line : Line α} {items rest : List α} (hqueue : line.queue = items ++ rest) :
      Line.Step line (.give items) { line with queue := rest }
  | close {line : Line α} (hended : line.ended = false) : Line.Step line .close { line with ended := true }
  | lose {line : Line α} : Line.Step line .lose ⟨[], true, true⟩
  | tell {line : Line α} (hdone : line.Done) : Line.Step line .tell line

/-- What a line and its history have in common at every moment. -/
structure Line.Keeps (acts : List (Act α)) (line : Line α) : Prop where
  inOrder : given acts <+: taken acts
  whole : line.lost = false → taken acts = given acts ++ line.queue
  bounded : line.queue.length ≤ cap
  stopped : line.lost = true → line.Done ∧ .lose ∈ acts

variable {cap} {line next : Line α} {act : Act α} {acts : List (Act α)}

theorem taken_concat : taken (acts ++ [act]) = taken acts ++ act.taken := by simp [taken]

theorem given_concat : given (acts ++ [act]) = given acts ++ act.given := by simp [given]

theorem Line.keeps_nil : Line.Keeps cap ([] : List (Act α)) {} :=
  ⟨List.prefix_rfl, fun _ ↦ rfl, Nat.zero_le _, fun hlost ↦ absurd hlost Bool.false_ne_true⟩

/-- One step keeps the order, every item not lost, and the bound. -/
theorem Line.Keeps.step (h : Line.Keeps cap acts line) (hstep : Line.Step cap line act next) :
    Line.Keeps cap (acts ++ [act]) next := by
  have horder : given acts <+: taken acts ++ act.taken := h.inOrder.trans (List.prefix_append _ _)
  constructor
  · rw [taken_concat, given_concat]
    cases hstep with
    | give hqueue =>
      cases hlost : line.lost with
      | false =>
        rw [h.whole hlost, hqueue]
        simp [Act.taken, Act.given]
      | true =>
        rw [(h.stopped hlost).1.2] at hqueue
        rw [(List.append_eq_nil_iff.1 hqueue.symm).1]
        simpa [Act.taken, Act.given] using h.inOrder
    | _ => simpa [Act.given] using horder
  · intro hlost
    rw [taken_concat, given_concat]
    cases hstep with
    | take hended hqueue hcap => simp [Act.taken, Act.given, h.whole hlost, hqueue]
    | give hqueue => simp [Act.taken, Act.given, h.whole hlost, hqueue]
    | close hended => simp [Act.taken, Act.given, h.whole hlost]
    | lose => exact absurd hlost (by simp)
    | tell hdone => simp [Act.taken, Act.given, h.whole hlost]
  · cases hstep with
    | take hended hqueue hcap => exact hcap
    | @give items rest hqueue =>
      have hbound := h.bounded
      rw [hqueue, List.length_append] at hbound
      exact (Nat.le_add_left _ _).trans hbound
    | close hended => exact h.bounded
    | lose => exact Nat.zero_le _
    | tell hdone => exact h.bounded
  · intro hlost
    cases hstep with
    | take hended hqueue hcap => exact absurd (h.stopped hlost).1.1 (by rw [hended]; exact Bool.false_ne_true)
    | give hqueue =>
      obtain ⟨hdone, hlose⟩ := h.stopped hlost
      have hempty := List.append_eq_nil_iff.1 (hqueue.symm.trans hdone.2)
      exact ⟨⟨hdone.1, hempty.2⟩, List.mem_append_left _ hlose⟩
    | close hended => exact ⟨⟨rfl, (h.stopped hlost).1.2⟩, List.mem_append_left _ (h.stopped hlost).2⟩
    | lose => exact ⟨⟨rfl, rfl⟩, List.mem_append_right _ (List.mem_singleton_self _)⟩
    | tell hdone => exact ⟨hdone, List.mem_append_left _ (h.stopped hlost).2⟩

/-- A line whose sink did not break has given all it took, but for what it holds. -/
theorem Line.Keeps.whole_of_not_lose (h : Line.Keeps cap acts line) (hlose : .lose ∉ acts) :
    taken acts = given acts ++ line.queue :=
  h.whole (Bool.eq_false_iff.2 fun hlost ↦ hlose (h.stopped hlost).2)

/-! ## Both directions -/

inductive End
  | source
  | sink
  deriving DecidableEq

/-- What happens between two ends. -/
inductive Move (α : Type u)
  | up (act : Act α)
  | down (act : Act α)
  | release (end_ : End)
  | shutdown

structure Duplex (α : Type u) where
  up : Line α := {}
  down : Line α := {}
  released : List End := []
  stopping : Bool := false

/-- The end that the upward act is made on. -/
def Act.usesUp : Act α → End
  | .take _ => .source
  | .close => .source
  | _ => .sink

def Act.usesDown : Act α → End
  | .take _ => .sink
  | .close => .sink
  | _ => .source

/-- The end that a move is made on. -/
def Move.uses : Move α → Option End
  | .up act => some act.usesUp
  | .down act => some act.usesDown
  | .release end_ => some end_
  | .shutdown => none

def Move.ups : Move α → Option (Act α)
  | .up act => some act
  | _ => none

def Move.downs : Move α → Option (Act α)
  | .down act => some act
  | _ => none

variable (cap)

inductive Duplex.Step : Duplex α → Move α → Duplex α → Prop
  | up {duplex : Duplex α} {act : Act α} {line : Line α} (hheld : act.usesUp ∉ duplex.released)
      (hstep : Line.Step cap duplex.up act line) : Duplex.Step duplex (.up act) { duplex with up := line }
  | down {duplex : Duplex α} {act : Act α} {line : Line α} (hheld : act.usesDown ∉ duplex.released)
      (hstep : Line.Step cap duplex.down act line) : Duplex.Step duplex (.down act) { duplex with down := line }
  | release {duplex : Duplex α} {end_ : End} (hheld : end_ ∉ duplex.released)
      (hdone : duplex.stopping = true ∨ duplex.up.Done ∧ duplex.down.Done) :
      Duplex.Step duplex (.release end_) { duplex with released := end_ :: duplex.released }
  | shutdown {duplex : Duplex α} : Duplex.Step duplex .shutdown { duplex with stopping := true }

/-- The histories of a duplex, the latest move last, and where each leads. -/
inductive Duplex.Reaches : List (Move α) → Duplex α → Prop
  | start : Duplex.Reaches [] {}
  | step {moves : List (Move α)} {duplex next : Duplex α} {move : Move α} (h : Duplex.Reaches moves duplex)
      (hstep : Duplex.Step cap duplex move next) : Duplex.Reaches (moves ++ [move]) next

variable {cap} {duplex : Duplex α} {moves before after : List (Move α)} {move : Move α} {end_ : End}

theorem Duplex.Reaches.keeps (h : Duplex.Reaches cap moves duplex) :
    Line.Keeps cap (moves.filterMap Move.ups) duplex.up ∧ Line.Keeps cap (moves.filterMap Move.downs) duplex.down := by
  induction h with
  | start => exact ⟨Line.keeps_nil, Line.keeps_nil⟩
  | step _ hstep ih =>
    rw [List.filterMap_append, List.filterMap_append]
    cases hstep with
    | up hheld hstep => exact ⟨ih.1.step hstep, by simpa [Move.downs, List.filterMap_cons] using ih.2⟩
    | down hheld hstep => exact ⟨by simpa [Move.ups, List.filterMap_cons] using ih.1, ih.2.step hstep⟩
    | release hheld hdone => exact ⟨by simpa [Move.ups, List.filterMap_cons] using ih.1, by simpa [Move.downs, List.filterMap_cons] using ih.2⟩
    | shutdown => exact ⟨by simpa [Move.ups, List.filterMap_cons] using ih.1, by simpa [Move.downs, List.filterMap_cons] using ih.2⟩

/-- The latest move of a history. -/
theorem Duplex.Reaches.of_concat (h : Duplex.Reaches cap (before ++ [move]) duplex) :
    ∃ earlier, Duplex.Reaches cap before earlier ∧ Duplex.Step cap earlier move duplex := by
  generalize hmoves : before ++ [move] = moves at h
  cases h with
  | start => exact absurd hmoves (by simp)
  | step h hstep =>
    obtain ⟨rfl, hmove⟩ := List.append_inj' hmoves rfl
    cases List.singleton_inj.1 hmove
    exact ⟨_, h, hstep⟩

/-- The beginning of a history is one. -/
theorem Duplex.Reaches.of_append (h : Duplex.Reaches cap (before ++ after) duplex) :
    ∃ earlier, Duplex.Reaches cap before earlier := by
  induction after using List.reverseRecOn generalizing duplex with
  | nil => exact ⟨duplex, by simpa using h⟩
  | append_singleton after move ih =>
    rw [← List.append_assoc] at h
    obtain ⟨earlier, h, -⟩ := h.of_concat
    exact ih h

theorem Duplex.Reaches.released_iff (h : Duplex.Reaches cap moves duplex) :
    end_ ∈ duplex.released ↔ Move.release end_ ∈ moves := by
  induction h with
  | start => simp
  | step _ hstep ih => cases hstep <;> simp [ih, or_comm]

theorem Duplex.Reaches.stopping_iff (h : Duplex.Reaches cap moves duplex) :
    duplex.stopping = true ↔ Move.shutdown ∈ moves := by
  induction h with
  | start => simp
  | step _ hstep ih => cases hstep <;> simp [ih]

/-- Nothing is done on an end that was released. -/
theorem Duplex.Reaches.not_uses (h : Duplex.Reaches cap (before ++ [move]) duplex)
    (hreleased : Move.release end_ ∈ before) : move.uses ≠ some end_ := by
  obtain ⟨earlier, h, hstep⟩ := h.of_concat
  have hmem := h.released_iff.2 hreleased
  intro huses
  cases hstep with
  | up hheld hstep => exact hheld (Option.some_inj.1 huses ▸ hmem)
  | down hheld hstep => exact hheld (Option.some_inj.1 huses ▸ hmem)
  | release hheld hdone => exact hheld (Option.some_inj.1 huses ▸ hmem)
  | shutdown => cases huses

/-- The sink is told of the end when nothing is held for it. -/
theorem Duplex.Reaches.done_of_tell (h : Duplex.Reaches cap (before ++ [.up .tell]) duplex) :
    ∃ earlier, Duplex.Reaches cap before earlier ∧ earlier.up.Done := by
  obtain ⟨earlier, hearlier, hstep⟩ := h.of_concat
  cases hstep with
  | up hheld hstep => cases hstep with
    | tell hdone => exact ⟨_, hearlier, hdone⟩

/-- Unless all is shut down, an end is released when both lines are done. -/
theorem Duplex.Reaches.done_of_release (h : Duplex.Reaches cap (before ++ [.release end_]) duplex)
    (hshutdown : Move.shutdown ∉ before) :
    ∃ earlier, Duplex.Reaches cap before earlier ∧ earlier.up.Done ∧ earlier.down.Done := by
  obtain ⟨earlier, hearlier, hstep⟩ := h.of_concat
  cases hstep with
  | release hheld hdone =>
    exact ⟨_, hearlier, hdone.resolve_left fun hstopping ↦ hshutdown (hearlier.stopping_iff.1 hstopping)⟩

end Squaero.Lib.Relay
