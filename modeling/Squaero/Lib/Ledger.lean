import Mathlib.Data.List.Basic
import Mathlib.Data.List.Count

/-!
# Histories of owned resources

Owners are opened and disposed of; while it is open an owner gives out resources, each of which is
used and then released. A history lists what happened, the latest event first. `Accepted` histories
are those in which every event was allowed when it happened: nothing is used or released that is not
live, no resource is given out twice, and an owner goes only when none of its resources is live.
-/

namespace Squaero.Lib.Ledger

universe u v

variable {Owner : Type u} {Resource : Type v}

inductive Event (Owner : Type u) (Resource : Type v)
  | «open» (owner : Owner)
  | touch (owner : Owner)
  | acquire (owner : Owner) (resource : Resource)
  | use (resource : Resource)
  | release (resource : Resource)
  | dispose (owner : Owner)
  deriving DecidableEq

abbrev History (Owner : Type u) (Resource : Type v) := List (Event Owner Resource)

variable {past : History Owner Resource} {owner other : Owner} {resource : Resource}

def Open (past : History Owner Resource) (owner : Owner) : Prop :=
  .open owner ∈ past ∧ .dispose owner ∉ past

/-- `owner` gave out `resource`. -/
def OwnedBy (past : History Owner Resource) (owner : Owner) (resource : Resource) : Prop :=
  .acquire owner resource ∈ past

def Given (past : History Owner Resource) (resource : Resource) : Prop :=
  ∃ owner, OwnedBy past owner resource

def Live (past : History Owner Resource) (resource : Resource) : Prop :=
  Given past resource ∧ .release resource ∉ past

/-- What may happen next. -/
def Allowed (past : History Owner Resource) : Event Owner Resource → Prop
  | .open owner => .open owner ∉ past
  | .touch owner => Open past owner
  | .acquire owner resource => Open past owner ∧ ¬ Given past resource
  | .use resource => Live past resource
  | .release resource => Live past resource
  | .dispose owner => Open past owner ∧ ∀ resource, OwnedBy past owner resource → ¬ Live past resource

def Accepted : History Owner Resource → Prop
  | [] => True
  | event :: past => Allowed past event ∧ Accepted past

/-! ## One event more -/

@[simp]
theorem ownedBy_cons {event : Event Owner Resource} :
    OwnedBy (event :: past) owner resource ↔
      .acquire owner resource = event ∨ OwnedBy past owner resource :=
  List.mem_cons

@[simp]
theorem given_cons {event : Event Owner Resource} :
    Given (event :: past) resource ↔
      (∃ owner, .acquire owner resource = event) ∨ Given past resource := by
  simp only [Given, ownedBy_cons, exists_or]

theorem open_cons {event : Event Owner Resource} :
    Open (event :: past) owner ↔
      (.open owner = event ∨ .open owner ∈ past) ∧ .dispose owner ≠ event ∧ .dispose owner ∉ past := by
  simp only [Open, List.mem_cons, not_or, Ne]

theorem live_cons {event : Event Owner Resource} :
    Live (event :: past) resource ↔
      ((∃ owner, .acquire owner resource = event) ∨ Given past resource) ∧
        .release resource ≠ event ∧ .release resource ∉ past := by
  simp only [Live, given_cons, List.mem_cons, not_or, Ne]

theorem OwnedBy.given (h : OwnedBy past owner resource) : Given past resource := ⟨owner, h⟩

/-- Only what was given out is ever released. -/
theorem given_of_release_mem (h : Accepted past) (hmem : .release resource ∈ past) :
    Given past resource := by
  induction past with
  | nil => simp at hmem
  | cons event past ih =>
    rcases List.mem_cons.1 hmem with rfl | hpast
    · exact given_cons.2 (.inr h.1.1)
    · exact given_cons.2 (.inr (ih h.2 hpast))

theorem opened_of_dispose_mem (h : Accepted past) (hmem : .dispose owner ∈ past) :
    .open owner ∈ past := by
  induction past with
  | nil => simp at hmem
  | cons event past ih =>
    rcases List.mem_cons.1 hmem with rfl | hpast
    · exact .tail _ h.1.1.1
    · exact .tail _ (ih h.2 hpast)

/-- A resource has one owner. -/
theorem owner_unique (h : Accepted past) (howner : OwnedBy past owner resource)
    (hother : OwnedBy past other resource) : owner = other := by
  induction past with
  | nil => simp [OwnedBy] at howner
  | cons event past ih =>
    rw [ownedBy_cons] at howner hother
    rcases howner with rfl | howner
    · rcases hother with heq | hother
      · cases heq
        rfl
      · exact absurd hother.given h.1.2
    · rcases hother with rfl | hother
      · exact absurd howner.given h.1.2
      · exact ih h.2 howner hother

/-! ## Whole histories -/

section Whole

variable {before after : History Owner Resource}

theorem Accepted.of_append (h : Accepted (after ++ before)) : Accepted before := by
  induction after with
  | nil => exact h
  | cons event after ih => exact ih h.2

/-- Behind its release a resource is neither used nor released. -/
theorem not_mem_after_release (h : Accepted (after ++ .release resource :: before)) :
    .use resource ∉ after ∧ .release resource ∉ after := by
  induction after with
  | nil => simp
  | cons event after ih =>
    have hlive : ¬ Live (after ++ .release resource :: before) resource := by
      intro hlive
      exact hlive.2 (by simp)
    obtain ⟨huse, hrelease⟩ := ih h.2
    simp only [List.mem_cons, not_or]
    refine ⟨⟨?_, huse⟩, ?_, hrelease⟩
    · rintro rfl
      exact hlive h.1
    · rintro rfl
      exact hlive h.1

/-- No owner goes before each of its resources is released. -/
theorem release_mem_of_dispose (h : Accepted (after ++ .dispose owner :: before))
    (howner : OwnedBy (after ++ .dispose owner :: before) owner resource) :
    .release resource ∈ before := by
  have hbefore : OwnedBy before owner resource := by
    induction after with
    | nil => simpa using howner
    | cons event after ih =>
      rcases ownedBy_cons.1 howner with rfl | howner
      · exact absurd (by simp) h.1.1.2
      · exact ih h.2 howner
  by_contra hrelease
  exact h.of_append.1.2 resource hbefore ⟨hbefore.given, hrelease⟩

theorem count_release_eq_zero_or_one [DecidableEq Owner] [DecidableEq Resource]
    (h : Accepted past) (hgiven : Given past resource) :
    past.count (.release resource) = 0 ∧ Live past resource ∨
      past.count (.release resource) = 1 ∧ ¬ Live past resource := by
  by_cases hmem : .release resource ∈ past
  · right
    obtain ⟨after, before, rfl⟩ := List.append_of_mem hmem
    have hbefore : .release resource ∉ before := h.of_append.1.2
    refine ⟨?_, fun hlive ↦ hlive.2 hmem⟩
    rw [List.count_append, List.count_cons_self, List.count_eq_zero_of_not_mem hbefore,
      List.count_eq_zero_of_not_mem (not_mem_after_release h).2]
  · exact .inl ⟨List.count_eq_zero_of_not_mem hmem, hgiven, hmem⟩

end Whole

end Squaero.Lib.Ledger
