import Mathlib.Data.List.Nodup
import Mathlib.Data.List.Perm.Basic
import Squaero.Lib.Ledger

/-!
# Holders of owned resources

A table of holders, one for each open owner, each with at most one resource, and at most one resource
in flight outside the table. `Holding` says that the live resources of a history are these and no
others. Its lemmas follow the events of a history and the moves between table and flight.
-/

namespace Squaero.Lib.Ledger

universe u v

variable {Owner : Type u} {Resource : Type v}

abbrev Holder (Owner : Type u) (Resource : Type v) := Owner × Option Resource

/-- The resources a table holds. -/
def held (holders : List (Holder Owner Resource)) : List Resource := holders.filterMap Prod.snd

structure Holding (holders : List (Holder Owner Resource)) (inflight : Option Resource)
    (past : History Owner Resource) : Prop where
  accepted : Accepted past
  live_iff : ∀ r, Live past r ↔ r ∈ inflight ∨ r ∈ held holders
  nodup : (held holders).Nodup
  not_held : ∀ r ∈ inflight, r ∉ held holders
  ownedBy : ∀ owner r, (owner, some r) ∈ holders → OwnedBy past owner r
  isOpen : ∀ holder ∈ holders, Open past holder.1
  owners : (holders.map Prod.fst).Nodup

variable {holders holders' : List (Holder Owner Resource)} {inflight : Option Resource}
  {past : History Owner Resource} {owner : Owner} {r : Resource}

theorem mem_held : r ∈ held holders ↔ ∃ owner, (owner, some r) ∈ holders := by
  simp [held]

@[simp]
theorem held_cons_none : held ((owner, none) :: holders) = held holders := rfl

@[simp]
theorem held_cons_some : held ((owner, some r) :: holders) = r :: held holders := rfl

namespace Holding

theorem nil : Holding ([] : List (Holder Owner Resource)) none [] where
  accepted := trivial
  live_iff r := by simp [Live, Given, OwnedBy, held]
  nodup := List.nodup_nil
  not_held r hr := by simp at hr
  ownedBy owner r hmem := by simp at hmem
  isOpen holder hmem := by simp at hmem
  owners := List.nodup_nil

theorem perm (h : Holding holders inflight past) (hperm : holders.Perm holders') :
    Holding holders' inflight past := by
  have hheld : (held holders).Perm (held holders') := hperm.filterMap _
  exact
    { accepted := h.accepted
      live_iff := fun r ↦ by rw [h.live_iff, hheld.mem_iff]
      nodup := hheld.nodup_iff.1 h.nodup
      not_held := fun r hr ↦ fun hmem ↦ h.not_held r hr (hheld.mem_iff.2 hmem)
      ownedBy := fun owner r hmem ↦ h.ownedBy owner r (hperm.mem_iff.2 hmem)
      isOpen := fun holder hmem ↦ h.isOpen holder (hperm.mem_iff.2 hmem)
      owners := (hperm.map _).nodup_iff.1 h.owners }

theorem live (h : Holding holders (some r) past) : Live past r := (h.live_iff r).2 (.inl rfl)

/-! ## Events -/

theorem use (h : Holding holders inflight past) (hlive : Live past r) :
    Holding holders inflight (.use r :: past) where
  accepted := ⟨hlive, h.accepted⟩
  live_iff s := by simpa [Live] using h.live_iff s
  nodup := h.nodup
  not_held := h.not_held
  ownedBy owner s hmem := by simpa using h.ownedBy owner s hmem
  isOpen holder hmem := by simpa [Open] using h.isOpen holder hmem
  owners := h.owners

theorem touch (h : Holding holders inflight past) (hopen : Open past owner) :
    Holding holders inflight (.touch owner :: past) where
  accepted := ⟨hopen, h.accepted⟩
  live_iff s := by simpa [Live] using h.live_iff s
  nodup := h.nodup
  not_held := h.not_held
  ownedBy owner s hmem := by simpa using h.ownedBy owner s hmem
  isOpen holder hmem := by simpa [Open] using h.isOpen holder hmem
  owners := h.owners

theorem «open» (h : Holding holders inflight past) (hnew : .open owner ∉ past) :
    Holding holders inflight (.open owner :: past) where
  accepted := ⟨hnew, h.accepted⟩
  live_iff s := by simpa [Live] using h.live_iff s
  nodup := h.nodup
  not_held := h.not_held
  ownedBy owner s hmem := by simpa using h.ownedBy owner s hmem
  isOpen holder hmem := by
    obtain ⟨hopen, hdispose⟩ := h.isOpen holder hmem
    exact open_cons.2 ⟨.inr hopen, by simp, hdispose⟩
  owners := h.owners

theorem acquire (h : Holding holders none past) (hopen : Open past owner)
    (hnew : ¬ Given past r) : Holding holders (some r) (.acquire owner r :: past) where
  accepted := ⟨⟨hopen, hnew⟩, h.accepted⟩
  live_iff s := by
    have hrelease : .release r ∉ past := fun hmem ↦ hnew (given_of_release_mem h.accepted hmem)
    have hs : Live past s ↔ s ∈ held holders := by simpa using h.live_iff s
    rw [live_cons, Option.mem_some_iff, ← hs]
    constructor
    · rintro ⟨hacquire | hgiven, -, hmem⟩
      · obtain ⟨_, heq⟩ := hacquire
        cases heq
        exact .inl rfl
      · exact .inr ⟨hgiven, hmem⟩
    · rintro (rfl | hlive)
      · exact ⟨.inl ⟨owner, rfl⟩, by simp, hrelease⟩
      · exact ⟨.inr hlive.1, by simp, hlive.2⟩
  nodup := h.nodup
  not_held s hs hmem := by
    cases Option.mem_some_iff.1 hs
    exact hnew ((h.live_iff r).2 (.inr hmem)).1
  ownedBy owner s hmem := ownedBy_cons.2 (.inr (h.ownedBy owner s hmem))
  isOpen holder hmem := by simpa [Open] using h.isOpen holder hmem
  owners := h.owners

theorem release (h : Holding holders (some r) past) :
    Holding holders none (.release r :: past) where
  accepted := ⟨h.live, h.accepted⟩
  live_iff s := by
    have hs : Live (.release r :: past) s ↔ Live past s ∧ s ≠ r := by
      simp only [Live, given_cons, List.mem_cons, not_or, reduceCtorEq, exists_false, false_or,
        Event.release.injEq, Ne]
      tauto
    have hheld : s ∈ held holders → s ≠ r := by
      rintro hmem rfl
      exact h.not_held s rfl hmem
    rw [hs, h.live_iff, Option.mem_some_iff]
    simp only [Option.mem_def, reduceCtorEq, false_or]
    constructor
    · rintro ⟨rfl | hmem, hne⟩
      · exact absurd rfl hne
      · exact hmem
    · intro hmem
      exact ⟨.inr hmem, hheld hmem⟩
  nodup := h.nodup
  not_held s hs := by simp at hs
  ownedBy owner s hmem := by simpa using h.ownedBy owner s hmem
  isOpen holder hmem := by simpa [Open] using h.isOpen holder hmem
  owners := h.owners

/-- An owner that is not in the table has no live resource, and may go. -/
theorem dispose (h : Holding holders none past) (hopen : Open past owner)
    (hother : owner ∉ holders.map Prod.fst) : Holding holders none (.dispose owner :: past) where
  accepted := by
    refine ⟨⟨hopen, fun s howner hlive ↦ ?_⟩, h.accepted⟩
    have hmem : s ∈ held holders := by simpa using (h.live_iff s).1 hlive
    obtain ⟨holder, hholder⟩ := mem_held.1 hmem
    cases owner_unique h.accepted howner (h.ownedBy holder s hholder)
    exact hother (List.mem_map_of_mem hholder)
  live_iff s := by simpa [Live] using h.live_iff s
  nodup := h.nodup
  not_held s hs := by simp at hs
  ownedBy owner s hmem := by simpa using h.ownedBy owner s hmem
  isOpen holder hmem := by
    have hne : owner ≠ holder.1 := by
      rintro rfl
      exact hother (List.mem_map_of_mem hmem)
    simpa [Open, hne.symm] using h.isOpen holder hmem
  owners := h.owners

/-! ## The table -/

/-- A resource leaves the table. -/
theorem take (h : Holding ((owner, some r) :: holders) none past) :
    Holding ((owner, none) :: holders) (some r) past where
  accepted := h.accepted
  live_iff s := by simpa [eq_comm] using h.live_iff s
  nodup := (List.nodup_cons.1 h.nodup).2
  not_held s hs := by
    cases Option.mem_some_iff.1 hs
    exact (List.nodup_cons.1 h.nodup).1
  ownedBy other s hmem := h.ownedBy other s (by simpa using .inr (by simpa using hmem))
  isOpen := by simpa using h.isOpen
  owners := h.owners

/-- A resource in flight goes to its owner's place. -/
theorem put (h : Holding ((owner, none) :: holders) (some r) past) (howner : OwnedBy past owner r) :
    Holding ((owner, some r) :: holders) none past where
  accepted := h.accepted
  live_iff s := by simpa [eq_comm] using h.live_iff s
  nodup := List.nodup_cons.2 ⟨h.not_held r rfl, h.nodup⟩
  not_held s hs := by simp at hs
  ownedBy other s hmem := by
    rcases List.mem_cons.1 hmem with heq | hmem
    · cases heq
      exact howner
    · exact h.ownedBy other s (.tail _ hmem)
  isOpen := by simpa using h.isOpen
  owners := h.owners

/-- A holder without a resource leaves the table, -/
theorem leave (h : Holding ((owner, none) :: holders) inflight past) :
    Holding holders inflight past ∧ Open past owner ∧ owner ∉ holders.map Prod.fst := by
  obtain ⟨hother, howners⟩ := List.nodup_cons.1 h.owners
  exact
    ⟨{ h with
        ownedBy := fun other s hmem ↦ h.ownedBy other s (.tail _ hmem)
        isOpen := fun holder hmem ↦ h.isOpen holder (.tail _ hmem)
        owners := howners },
      h.isOpen _ (.head _), hother⟩

/-- and an open owner joins it. -/
theorem join (h : Holding holders inflight past) (hopen : Open past owner)
    (hother : owner ∉ holders.map Prod.fst) :
    Holding ((owner, none) :: holders) inflight past :=
  { h with
    ownedBy := fun other s hmem ↦ h.ownedBy other s (by simpa using hmem)
    isOpen := fun holder hmem ↦ by
      rcases List.mem_cons.1 hmem with rfl | hmem
      · exact hopen
      · exact h.isOpen holder hmem
    owners := List.nodup_cons.2 ⟨hother, h.owners⟩ }

/-- Every resource ever given out is released once, or held and not released. -/
theorem count_release [DecidableEq Owner] [DecidableEq Resource]
    (h : Holding holders none past) (hgiven : Given past r) :
    past.count (.release r) + (held holders).count r = 1 := by
  have hheld : Live past r ↔ r ∈ held holders := by simpa using h.live_iff r
  rcases count_release_eq_zero_or_one h.accepted hgiven with ⟨hcount, hlive⟩ | ⟨hcount, hdead⟩
  · rw [hcount, List.count_eq_one_of_mem h.nodup (hheld.1 hlive)]
  · rw [hcount, List.count_eq_zero_of_not_mem (mt hheld.2 hdead)]

end Holding

end Squaero.Lib.Ledger
