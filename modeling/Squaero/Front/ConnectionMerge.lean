import Squaero.Front.Connections

/-!
# Merging imported connections

What every step of `mergeConnections` keeps, and what therefore holds of the whole import: no connection is lost or
there twice, and importing the same entries again changes nothing, as long as fresh ids do not run out.
-/

namespace Squaero.Front.Connections

open Squaero.Lib

/-! ## One entry after another -/

/-- An entry's data put under the id that it was given. -/
def put (e : Connection) (assigned : Text × Connection) : Connection :=
  if e.id = assigned.1 then { assigned.2 with id := assigned.1 } else e

@[simp] theorem put_id (e : Connection) (assigned : Text × Connection) : (put e assigned).id = e.id := by
  unfold put
  split_ifs with h
  · exact h.symm
  · rfl

theorem foldl_put_id (assigned : List (Text × Connection)) (e : Connection) : (assigned.foldl put e).id = e.id := by
  induction assigned generalizing e with
  | nil => rfl
  | cons a assigned ih => rw [List.foldl_cons, ih, put_id]

theorem foldl_map_put (assigned : List (Text × Connection)) (list : List Connection) :
    assigned.foldl (fun list a ↦ list.map fun e ↦ put e a) list = list.map fun e ↦ assigned.foldl put e := by
  induction assigned generalizing list with
  | nil => simp
  | cons a assigned ih => rw [List.foldl_cons, ih, List.map_map]; rfl

/-- The data that was last put under an id. -/
def heldBy (assigned : List (Text × Connection)) (id : Text) : Option Connection :=
  (assigned.reverse.find? (·.1 = id)).map (·.2)

theorem foldl_put_eq (assigned : List (Text × Connection)) (e : Connection) :
    assigned.foldl put e = match heldBy assigned e.id with
      | some c => { c with id := e.id }
      | none => e := by
  induction assigned using List.reverseRecOn with
  | nil => rfl
  | append_singleton assigned a ih =>
    rw [List.foldl_append, List.foldl_cons, List.foldl_nil, heldBy, List.reverse_append, List.reverse_singleton,
      List.singleton_append, List.find?_cons]
    have hid := foldl_put_id assigned e
    by_cases ha : a.1 = e.id
    · simp [put, hid, ha]
    · rw [put, if_neg (by rw [hid]; exact fun h ↦ ha h.symm), ih]
      simp [ha, heldBy]

section

variable (toLowerCase : Text → Text) (lenient : Bool)

/-- What an entry is matched by. -/
def keyOf (e : Connection) : Text × Text := (e.id, norm toLowerCase e.name)

/-- The id of the connection that an entry is matched with. -/
def targetOf (keys : List (Text × Text)) (c : Connection) : Option Text :=
  let byName := keys.find? fun k ↦ k.2 = norm toLowerCase c.name
  let found :=
    match if jsTrim c.id = [] then none else keys.find? fun k ↦ k.1 = c.id with
    | some byId => if byId.2 = norm toLowerCase c.name then some byId else byName
    | none => byName
  found.map (·.1)

theorem map_matching (list : List Connection) (c : Connection) :
    (matching toLowerCase list c).map (·.id) = targetOf toLowerCase (list.map (keyOf toLowerCase)) c := by
  have hname : (list.map (keyOf toLowerCase)).find? (fun k ↦ k.2 = norm toLowerCase c.name) =
      (list.find? fun e ↦ norm toLowerCase e.name = norm toLowerCase c.name).map (keyOf toLowerCase) :=
    List.find?_map
  have hid : (list.map (keyOf toLowerCase)).find? (fun k ↦ k.1 = c.id) =
      (list.find? fun e ↦ e.id = c.id).map (keyOf toLowerCase) :=
    List.find?_map
  unfold targetOf matching
  dsimp only
  rw [hname, hid]
  by_cases hblank : jsTrim c.id = []
  · simp only [hblank, if_true, Option.map_map]
    rfl
  · simp only [hblank, if_false]
    cases list.find? fun e ↦ e.id = c.id with
    | none => simp only [Option.map_none, Option.map_map]; rfl
    | some byId =>
      simp only [Option.map_some]
      by_cases hsame : norm toLowerCase byId.name = norm toLowerCase c.name
      · simp [hsame, keyOf]
      · have hsame' : ¬ (keyOf toLowerCase byId).2 = norm toLowerCase c.name := hsame
        rw [if_neg hsame, if_neg hsame', Option.map_map]
        rfl

theorem mem_of_targetOf {keys : List (Text × Text)} {c : Connection} {x : Text}
    (h : targetOf toLowerCase keys c = some x) : ∃ k ∈ keys, k.1 = x ∧ k.2 = norm toLowerCase c.name := by
  obtain ⟨k, hk, rfl⟩ := Option.map_eq_some_iff.mp h
  have hname {k : Text × Text} (hk : keys.find? (fun k ↦ k.2 = norm toLowerCase c.name) = some k) :
      ∃ k' ∈ keys, k'.1 = k.1 ∧ k'.2 = norm toLowerCase c.name :=
    ⟨k, List.mem_of_find?_eq_some hk, rfl, by simpa using List.find?_some hk⟩
  split at hk
  next byId hbyId =>
    split_ifs at hk with hsame
    · obtain ⟨-, hfind⟩ := Option.ite_none_left_eq_some.mp hbyId
      obtain rfl := Option.some.inj hk
      exact ⟨_, List.mem_of_find?_eq_some hfind, rfl, hsame⟩
    · exact hname hk
  next => exact hname hk

theorem targetOf_eq_none_iff {keys : List (Text × Text)} {c : Connection} :
    targetOf toLowerCase keys c = none ↔ ∀ k ∈ keys, k.2 ≠ norm toLowerCase c.name := by
  constructor
  · intro hnone k hk hsame
    have hsome : (keys.find? fun k ↦ k.2 = norm toLowerCase c.name).isSome = true :=
      List.find?_isSome.mpr ⟨k, hk, by simpa using hsame⟩
    obtain ⟨found, hfound⟩ := Option.isSome_iff_exists.mp hsome
    have hmap := Option.map_eq_none_iff.mp hnone
    rw [hfound] at hmap
    split at hmap
    · split_ifs at hmap
    · cases hmap
  · intro hall
    rw [Option.eq_none_iff_forall_ne_some]
    intro x hx
    obtain ⟨k, hk, -, hsame⟩ := mem_of_targetOf toLowerCase hx
    exact hall k hk hsame

/-- Entries of other names do not change what a matched entry is matched with. -/
theorem targetOf_append {keys more : List (Text × Text)} {c : Connection} {x : Text}
    (h : targetOf toLowerCase keys c = some x) (hmore : ∀ k ∈ more, k.2 ≠ norm toLowerCase c.name) :
    targetOf toLowerCase (keys ++ more) c = some x := by
  have hnameMore : more.find? (fun k ↦ k.2 = norm toLowerCase c.name) = none :=
    List.find?_eq_none.mpr fun k hk ↦ by simpa using hmore k hk
  have hname : (keys ++ more).find? (fun k ↦ k.2 = norm toLowerCase c.name) =
      keys.find? (fun k ↦ k.2 = norm toLowerCase c.name) := by
    rw [List.find?_append, hnameMore, Option.or_none]
  unfold targetOf at h ⊢
  dsimp only at h ⊢
  rw [hname]
  by_cases hblank : jsTrim c.id = []
  · simpa only [hblank, if_true] using h
  · simp only [hblank, if_false, List.find?_append] at h ⊢
    cases hid : keys.find? fun k ↦ k.1 = c.id with
    | some byId => simpa only [hid, Option.some_or] using h
    | none =>
      rw [hid] at h
      rw [Option.none_or]
      cases hidMore : more.find? fun k ↦ k.1 = c.id with
      | none => exact h
      | some byId =>
        dsimp only
        rwa [if_neg (hmore byId (List.mem_of_find?_eq_some hidMore))]

/-! ## What a merge keeps -/

/-- The entries that were taken in, each with the id that it was given. -/
def assigned (items : List Json) (st : Merged) : List (Text × Connection) :=
  st.ids.zip (items.filterMap (accepted lenient))

/-- What holds after any number of entries. -/
structure Sound (existing : List Connection) (items : List Json) (st : Merged) : Prop where
  length : st.ids.length = (items.filterMap (accepted lenient)).length
  counted : st.added + st.updated + st.skipped = items.length
  distinct : (st.list.map (·.id)).Nodup
  kept : ∀ (i : ℕ) (e : Connection), existing[i]? = some e →
    ∃ e' : Connection, st.list[i]? = some e' ∧ e'.id = e.id ∧ (e.id ∉ st.ids → e' = e)
  settled : ∀ e ∈ st.list, (assigned lenient items st).foldl put e = e
  targets : ∀ a ∈ assigned lenient items st,
    targetOf toLowerCase (st.list.map (keyOf toLowerCase)) a.2 = some a.1

variable {toLowerCase lenient} {existing : List Connection} {items : List Json} {st : Merged} {item : Json}

theorem filterMap_concat (items : List Json) (item : Json) :
    (items ++ [item]).filterMap (accepted lenient) = items.filterMap (accepted lenient) ++ (accepted lenient item).toList := by
  rw [List.filterMap_append]
  cases h : accepted lenient item <;> simp [h]

theorem Sound.skip (h : Sound toLowerCase lenient existing items st) (hitem : accepted lenient item = none) :
    Sound toLowerCase lenient existing (items ++ [item]) { st with skipped := st.skipped + 1 } where
  length := by rw [filterMap_concat, hitem, Option.toList_none, List.append_nil, h.length]
  counted := by
    have hcounted := h.counted
    rw [List.length_append, List.length_singleton]
    dsimp only
    omega
  distinct := h.distinct
  kept := h.kept
  settled := by
    have hsame : assigned lenient (items ++ [item]) { st with skipped := st.skipped + 1 } = assigned lenient items st := by
      rw [assigned, filterMap_concat, hitem, Option.toList_none, List.append_nil, assigned]
    rw [hsame]
    exact h.settled
  targets := by
    have hsame : assigned lenient (items ++ [item]) { st with skipped := st.skipped + 1 } = assigned lenient items st := by
      rw [assigned, filterMap_concat, hitem, Option.toList_none, List.append_nil, assigned]
    rw [hsame]
    exact h.targets

theorem mergeItem_skip (hitem : accepted lenient item = none) :
    mergeItem toLowerCase lenient st item = { st with skipped := st.skipped + 1 } := by
  unfold mergeItem
  rw [hitem]

theorem mergeItem_update {c e : Connection} (hitem : accepted lenient item = some c)
    (he : matching toLowerCase st.list c = some e) :
    mergeItem toLowerCase lenient st item =
      { st with list := st.list.map fun x ↦ put x (e.id, c), updated := st.updated + 1, ids := st.ids ++ [e.id] } := by
  unfold mergeItem
  rw [hitem]
  dsimp only
  rw [he]
  rfl

theorem mergeItem_add {c : Connection} (hitem : accepted lenient item = some c)
    (he : matching toLowerCase st.list c = none) :
    mergeItem toLowerCase lenient st item =
      { st with
        list := st.list ++ [{ c with id := addedId st.list c }]
        added := st.added + 1
        ids := st.ids ++ [addedId st.list c] } := by
  unfold mergeItem
  rw [hitem]
  dsimp only
  rw [he]

theorem matching_spec {list : List Connection} {c e : Connection} (h : matching toLowerCase list c = some e) :
    e ∈ list ∧ norm toLowerCase e.name = norm toLowerCase c.name := by
  have hname (h : list.find? (fun e ↦ norm toLowerCase e.name = norm toLowerCase c.name) = some e) :
      e ∈ list ∧ norm toLowerCase e.name = norm toLowerCase c.name :=
    ⟨List.mem_of_find?_eq_some h, by simpa using List.find?_some h⟩
  unfold matching at h
  dsimp only at h
  split at h
  next byId hbyId =>
    split_ifs at h with hsame
    · obtain ⟨-, hfind⟩ := Option.ite_none_left_eq_some.mp hbyId
      obtain rfl := Option.some.inj h
      exact ⟨List.mem_of_find?_eq_some hfind, hsame⟩
    · exact hname h
  next => exact hname h

/-- A matched entry has the name that the connection had, and gets its id. -/
theorem keys_put {list : List Connection} (h : (list.map (·.id)).Nodup) {c e : Connection}
    (he : matching toLowerCase list c = some e) :
    (list.map fun x ↦ put x (e.id, c)).map (keyOf toLowerCase) = list.map (keyOf toLowerCase) := by
  obtain ⟨hmem, hname⟩ := matching_spec he
  rw [List.map_map]
  refine List.map_congr_left fun x hx ↦ ?_
  rw [Function.comp_apply, put]
  split_ifs with hid
  · obtain rfl := List.inj_on_of_nodup_map h hx hmem hid
    rw [keyOf, keyOf, hname]
  · rfl

theorem assigned_concat (h : st.ids.length = (items.filterMap (accepted lenient)).length) {c : Connection}
    (hitem : accepted lenient item = some c) (id : Text) (st' : Merged) (hids : st'.ids = st.ids ++ [id]) :
    assigned lenient (items ++ [item]) st' = assigned lenient items st ++ [(id, c)] := by
  rw [assigned, hids, filterMap_concat, hitem, List.zip_append h]
  rfl

theorem length_concat (h : st.ids.length = (items.filterMap (accepted lenient)).length) {c : Connection}
    (hitem : accepted lenient item = some c) (id : Text) :
    (st.ids ++ [id]).length = ((items ++ [item]).filterMap (accepted lenient)).length := by
  rw [filterMap_concat, hitem, List.length_append, List.length_append, h]
  rfl

theorem Sound.update (h : Sound toLowerCase lenient existing items st) {c e : Connection}
    (hitem : accepted lenient item = some c) (he : matching toLowerCase st.list c = some e) :
    Sound toLowerCase lenient existing (items ++ [item]) (mergeItem toLowerCase lenient st item) := by
  have hassigned := assigned_concat h.length hitem e.id (mergeItem toLowerCase lenient st item)
    (by rw [mergeItem_update hitem he])
  have hkeys := keys_put h.distinct he
  constructor
  · rw [mergeItem_update hitem he]
    exact length_concat h.length hitem e.id
  · have hcounted := h.counted
    rw [mergeItem_update hitem he, List.length_append, List.length_singleton]
    dsimp only
    omega
  · rw [mergeItem_update hitem he]
    dsimp only
    rw [List.map_map]
    have hids : (fun x : Connection ↦ x.id) ∘ (fun x ↦ put x (e.id, c)) = fun x ↦ x.id := by
      funext x
      exact put_id x _
    rw [hids]
    exact h.distinct
  · intro i x hx
    obtain ⟨x', hx', hid, hsame⟩ := h.kept i x hx
    rw [mergeItem_update hitem he]
    refine ⟨put x' (e.id, c), ?_, ?_, fun hnot ↦ ?_⟩
    · rw [List.getElem?_map, hx', Option.map_some]
    · rw [put_id, hid]
    · rw [List.mem_append, not_or, List.mem_singleton] at hnot
      rw [put, hid, if_neg hnot.2, hsame hnot.1]
  · rw [hassigned, mergeItem_update hitem he]
    intro x' hx'
    obtain ⟨x, hx, rfl⟩ := List.mem_map.mp hx'
    rw [List.foldl_append, List.foldl_cons, List.foldl_nil]
    by_cases hid : x.id = e.id
    · have hkept := foldl_put_id (assigned lenient items st) (put x (e.id, c))
      rw [put_id] at hkept
      rw [put, hkept, if_pos hid, put, if_pos hid]
    · have hput : put x (e.id, c) = x := if_neg hid
      rw [hput, h.settled x hx, hput]
  · rw [hassigned, mergeItem_update hitem he, hkeys]
    intro a ha
    rcases List.mem_append.mp ha with hold | hnew
    · exact h.targets a hold
    · rw [List.mem_singleton.mp hnew, ← map_matching, he]
      rfl

/-- An entry that was added is found again. -/
theorem targetOf_added {list : List Connection} {c : Connection}
    (hnone : ∀ k ∈ list.map (keyOf toLowerCase), k.2 ≠ norm toLowerCase c.name) :
    targetOf toLowerCase (list.map (keyOf toLowerCase) ++ [keyOf toLowerCase { c with id := addedId list c }]) c =
      some (addedId list c) := by
  have hname : (list.map (keyOf toLowerCase)).find? (fun k ↦ k.2 = norm toLowerCase c.name) = none :=
    List.find?_eq_none.mpr fun k hk ↦ by simpa using hnone k hk
  have hnew : [keyOf toLowerCase { c with id := addedId list c }].find? (fun k ↦ k.2 = norm toLowerCase c.name) =
      some (addedId list c, norm toLowerCase c.name) := by
    simp [keyOf]
  unfold targetOf
  rw [List.find?_append, hname, Option.none_or, hnew]
  by_cases hblank : jsTrim c.id = []
  · simp [hblank]
  · simp only [hblank, if_false, List.find?_append]
    cases hid : (list.map (keyOf toLowerCase)).find? fun k ↦ k.1 = c.id with
    | some byId =>
      rw [Option.some_or]
      dsimp only
      rw [if_neg (hnone byId (List.mem_of_find?_eq_some hid))]
      rfl
    | none =>
      have hfree : ¬ ∃ e ∈ list, e.id = c.id := by
        rintro ⟨e, he, heq⟩
        have hnot := List.find?_eq_none.mp hid (keyOf toLowerCase e) (List.mem_map_of_mem he)
        exact hnot (decide_eq_true heq)
      have hown : addedId list c = c.id := if_neg (by simp only [hblank, hfree, or_self, not_false_iff])
      rw [Option.none_or, hown]
      simp [keyOf]

theorem Sound.add (h : Sound toLowerCase lenient existing items st) {c : Connection}
    (hitem : accepted lenient item = some c) (he : matching toLowerCase st.list c = none)
    (hfresh : ∀ e ∈ st.list, e.id ≠ addedId st.list c) :
    Sound toLowerCase lenient existing (items ++ [item]) (mergeItem toLowerCase lenient st item) := by
  have hassigned := assigned_concat h.length hitem (addedId st.list c) (mergeItem toLowerCase lenient st item)
    (by rw [mergeItem_add hitem he])
  have hnone : ∀ k ∈ st.list.map (keyOf toLowerCase), k.2 ≠ norm toLowerCase c.name := by
    rw [← targetOf_eq_none_iff, ← map_matching, he]
    rfl
  constructor
  · rw [mergeItem_add hitem he]
    exact length_concat h.length hitem _
  · have hcounted := h.counted
    rw [mergeItem_add hitem he, List.length_append, List.length_singleton]
    dsimp only
    omega
  · rw [mergeItem_add hitem he]
    dsimp only
    rw [List.map_append, List.nodup_append]
    refine ⟨h.distinct, List.nodup_singleton _, ?_⟩
    simp only [List.mem_map, List.map_cons, List.map_nil, List.mem_singleton]
    rintro _ ⟨e, hmem, rfl⟩ _ rfl
    exact hfresh e hmem
  · intro i x hx
    obtain ⟨x', hx', hid, hsame⟩ := h.kept i x hx
    rw [mergeItem_add hitem he]
    refine ⟨x', ?_, hid, fun hnot ↦ hsame fun hmem ↦ hnot (List.mem_append_left _ hmem)⟩
    rw [List.getElem?_append_left (List.getElem?_eq_some_iff.mp hx').1]
    exact hx'
  · rw [hassigned, mergeItem_add hitem he]
    intro x hx
    rw [List.foldl_append, List.foldl_cons, List.foldl_nil]
    rcases List.mem_append.mp hx with hold | hnew
    · rw [h.settled x hold, put, if_neg (hfresh x hold)]
    · have hkept := foldl_put_id (assigned lenient items st) x
      rw [put, hkept, List.mem_singleton.mp hnew, if_pos rfl]
  · rw [hassigned, mergeItem_add hitem he]
    dsimp only
    rw [List.map_append, List.map_cons, List.map_nil]
    intro a ha
    rcases List.mem_append.mp ha with hold | hnew
    · have htarget := h.targets a hold
      refine targetOf_append toLowerCase htarget fun k hk ↦ ?_
      obtain ⟨k', hk', -, hname⟩ := mem_of_targetOf toLowerCase htarget
      rw [List.mem_singleton.mp hk, ← hname]
      exact (hnone k' hk').symm
    · rw [List.mem_singleton.mp hnew]
      exact targetOf_added hnone

/-! ## Whole imports -/

theorem mergeConnections_concat (existing : List Connection) (items : List Json) (item : Json) :
    mergeConnections toLowerCase lenient existing (items ++ [item]) =
      mergeItem toLowerCase lenient (mergeConnections toLowerCase lenient existing items) item := by
  rw [mergeConnections, List.foldl_append]
  rfl

variable (toLowerCase lenient) in
/-- No entry that needs a fresh id meets a list whose numbers have run out. -/
def IdsSuffice (existing : List Connection) (incoming : List Json) : Prop :=
  ∀ before item after, incoming = before ++ item :: after → ∀ c, accepted lenient item = some c →
    let list := (mergeConnections toLowerCase lenient existing before).list
    matching toLowerCase list c = none → (jsTrim c.id = [] ∨ ∃ e ∈ list, e.id = c.id) → ¬ Exhausted list

theorem sound_empty (hdistinct : (existing.map (·.id)).Nodup) :
    Sound toLowerCase lenient existing [] (mergeConnections toLowerCase lenient existing []) where
  length := rfl
  counted := rfl
  distinct := hdistinct
  kept _ e he := ⟨e, he, rfl, fun _ ↦ rfl⟩
  settled _ _ := rfl
  targets := nofun

/-- The id of an entry that is added is not in use, unless the numbers have run out. -/
theorem addedId_fresh {list : List Connection} {c : Connection}
    (h : (jsTrim c.id = [] ∨ ∃ e ∈ list, e.id = c.id) → ¬ Exhausted list) : ∀ e ∈ list, e.id ≠ addedId list c := by
  intro e he heq
  by_cases hneeded : jsTrim c.id = [] ∨ ∃ e ∈ list, e.id = c.id
  · have hnext : addedId list c = nextConnectionId list := if_pos hneeded
    exact h hneeded ((nextConnectionId_mem_iff list).mp ⟨e, he, heq.trans hnext⟩)
  · have hown : addedId list c = c.id := if_neg hneeded
    exact hneeded (.inr ⟨e, he, heq.trans hown⟩)

theorem sound_of_idsSuffice (hdistinct : (existing.map (·.id)).Nodup) {incoming : List Json}
    (h : IdsSuffice toLowerCase lenient existing incoming) :
    Sound toLowerCase lenient existing incoming (mergeConnections toLowerCase lenient existing incoming) := by
  induction incoming using List.reverseRecOn with
  | nil => exact sound_empty hdistinct
  | append_singleton items item ih =>
    have hsound := ih fun before it after heq ↦ h before it (after ++ [item]) (by rw [heq]; simp)
    rw [mergeConnections_concat]
    cases hitem : accepted lenient item with
    | none =>
      rw [mergeItem_skip hitem]
      exact hsound.skip hitem
    | some c =>
      cases he : matching toLowerCase (mergeConnections toLowerCase lenient existing items).list c with
      | some e => exact hsound.update hitem he
      | none => exact hsound.add hitem he (addedId_fresh (h items item [] rfl c hitem he))

/-- An entry changes the data of one connection, or adds one. -/
theorem mergeItem_list (st : Merged) (item : Json) :
    (∃ a, (mergeItem toLowerCase lenient st item).list = st.list.map fun x ↦ put x a) ∨
      (∃ e, (mergeItem toLowerCase lenient st item).list = st.list ++ [e]) ∨
      (mergeItem toLowerCase lenient st item).list = st.list := by
  cases hitem : accepted lenient item with
  | none =>
    exact .inr (.inr (by rw [mergeItem_skip hitem]))
  | some c =>
    cases he : matching toLowerCase st.list c with
    | some e => exact .inl ⟨(e.id, c), by rw [mergeItem_update hitem he]⟩
    | none => exact .inr (.inl ⟨_, by rw [mergeItem_add hitem he]⟩)

theorem ids_mergeItem (st : Merged) (item : Json) :
    ∃ more, (mergeItem toLowerCase lenient st item).list.map (·.id) = st.list.map (·.id) ++ more := by
  rcases mergeItem_list st item with ⟨a, ha⟩ | ⟨e, he⟩ | hsame
  · refine ⟨[], ?_⟩
    rw [ha, List.map_map, List.append_nil]
    refine List.map_congr_left fun x _ ↦ put_id x a
  · exact ⟨[e.id], by rw [he, List.map_append]; rfl⟩
  · exact ⟨[], by rw [hsame, List.append_nil]⟩

theorem ids_foldl (incoming : List Json) (st : Merged) :
    ∃ more, (incoming.foldl (mergeItem toLowerCase lenient) st).list.map (·.id) = st.list.map (·.id) ++ more := by
  induction incoming generalizing st with
  | nil => exact ⟨[], (List.append_nil _).symm⟩
  | cons item incoming ih =>
    obtain ⟨more, hmore⟩ := ids_mergeItem st item
    obtain ⟨more', hmore'⟩ := ih (mergeItem toLowerCase lenient st item)
    exact ⟨more ++ more', by rw [List.foldl_cons, hmore', hmore, List.append_assoc]⟩

/-- Where the numbers have run out an id is there twice. -/
theorem idsSuffice_of_nodup {incoming : List Json}
    (h : ((mergeConnections toLowerCase lenient existing incoming).list.map (·.id)).Nodup) :
    IdsSuffice toLowerCase lenient existing incoming := by
  intro before item after heq c hitem
  dsimp only
  intro he hneeded hexhausted
  obtain ⟨e, hmem, hid⟩ := (nextConnectionId_mem_iff _).mpr hexhausted
  have hnext : addedId (mergeConnections toLowerCase lenient existing before).list c = e.id :=
    (if_pos hneeded).trans hid.symm
  obtain ⟨more, hmore⟩ := @ids_foldl toLowerCase lenient after
    (mergeItem toLowerCase lenient (mergeConnections toLowerCase lenient existing before) item)
  have hsplit : mergeConnections toLowerCase lenient existing incoming =
      after.foldl (mergeItem toLowerCase lenient)
        (mergeItem toLowerCase lenient (mergeConnections toLowerCase lenient existing before) item) := by
    rw [heq, mergeConnections, List.foldl_append]
    rfl
  rw [hsplit, hmore, mergeItem_add hitem he] at h
  have hstep := (List.nodup_append.mp h).1
  rw [List.map_append, List.nodup_append] at hstep
  exact hstep.2.2 e.id (List.mem_map_of_mem hmem) _ (.head _) hnext.symm

/-- Entries that are all matched leave ids and names as they are. -/
theorem foldl_matched {keys : List (Text × Text)} (hdistinct : (keys.map (·.1)).Nodup) (incoming : List Json)
    (ids : List Text) (hlength : ids.length = (incoming.filterMap (accepted lenient)).length)
    (htargets : ∀ a ∈ ids.zip (incoming.filterMap (accepted lenient)), targetOf toLowerCase keys a.2 = some a.1)
    (st : Merged) (hkeys : st.list.map (keyOf toLowerCase) = keys) :
    (incoming.foldl (mergeItem toLowerCase lenient) st).added = st.added ∧
      (incoming.foldl (mergeItem toLowerCase lenient) st).list =
        (ids.zip (incoming.filterMap (accepted lenient))).foldl (fun list a ↦ list.map fun e ↦ put e a) st.list := by
  induction incoming generalizing ids st with
  | nil =>
    rw [List.filterMap_nil, List.zip_nil_right]
    exact ⟨rfl, rfl⟩
  | cons item incoming ih =>
    rw [List.foldl_cons]
    cases hitem : accepted lenient item with
    | none =>
      rw [List.filterMap_cons_none hitem] at hlength htargets ⊢
      rw [mergeItem_skip hitem]
      exact ih ids hlength htargets _ hkeys
    | some c =>
      rw [List.filterMap_cons_some hitem] at hlength htargets ⊢
      obtain ⟨x, ids, rfl⟩ := List.exists_cons_of_length_eq_add_one hlength
      rw [List.zip_cons_cons, List.forall_mem_cons] at htargets
      have htarget := htargets.1
      rw [← hkeys, ← map_matching] at htarget
      obtain ⟨e, he, rfl⟩ := Option.map_eq_some_iff.mp htarget
      have hnodup : (st.list.map (·.id)).Nodup := by
        rw [← hkeys, List.map_map] at hdistinct
        exact hdistinct
      rw [mergeItem_update hitem he, List.zip_cons_cons, List.foldl_cons]
      exact ih ids (Nat.succ.inj hlength) htargets.2 _ ((keys_put hnodup he).trans hkeys)

variable (toLowerCase lenient) in
/-- What an import is to be. -/
structure MergesWell (existing : List Connection) (incoming : List Json) : Prop where
  distinct : ((mergeConnections toLowerCase lenient existing incoming).list.map (·.id)).Nodup
  /-- Every connection stays where it was, and what no entry was given the id of stays as it was. -/
  kept : ∀ (i : ℕ) (e : Connection), existing[i]? = some e →
    ∃ e' : Connection, (mergeConnections toLowerCase lenient existing incoming).list[i]? = some e' ∧ e'.id = e.id ∧
      (e.id ∉ (mergeConnections toLowerCase lenient existing incoming).ids → e' = e)
  /-- No entry changes two connections. -/
  oneReplaced : ∀ before item after, incoming = before ++ item :: after →
    let st := mergeConnections toLowerCase lenient existing before
    ∀ i < st.list.length, ∀ j < st.list.length,
      (mergeItem toLowerCase lenient st item).list[i]? ≠ st.list[i]? →
      (mergeItem toLowerCase lenient st item).list[j]? ≠ st.list[j]? → i = j
  counted : (mergeConnections toLowerCase lenient existing incoming).added +
    (mergeConnections toLowerCase lenient existing incoming).updated +
    (mergeConnections toLowerCase lenient existing incoming).skipped = incoming.length
  /-- There is an id for each entry taken in, and the connection of that id holds the data that were last put there. -/
  named : (mergeConnections toLowerCase lenient existing incoming).ids.length =
      (incoming.filterMap (accepted lenient)).length ∧
    ∀ id ∈ (mergeConnections toLowerCase lenient existing incoming).ids, ∃ c,
      heldBy (assigned lenient incoming (mergeConnections toLowerCase lenient existing incoming)) id = some c ∧
        { c with id := id } ∈ (mergeConnections toLowerCase lenient existing incoming).list
  again :
    let st := mergeConnections toLowerCase lenient existing incoming
    (mergeConnections toLowerCase lenient st.list incoming).added = 0 ∧
      (mergeConnections toLowerCase lenient st.list incoming).list = st.list

/-- One connection at most has the id under which data are put. -/
theorem put_changes_one {list : List Connection} (h : (list.map (·.id)).Nodup) (a : Text × Connection) {i j : ℕ}
    (hi : (list.map fun x ↦ put x a)[i]? ≠ list[i]?) (hj : (list.map fun x ↦ put x a)[j]? ≠ list[j]?) : i = j := by
  have hid {i : ℕ} (hi : (list.map fun x ↦ put x a)[i]? ≠ list[i]?) : (list.map (·.id))[i]? = some a.1 := by
    rw [List.getElem?_map] at hi ⊢
    cases he : list[i]? with
    | none => exact absurd (by rw [he]; rfl) hi
    | some e =>
      by_cases hsame : e.id = a.1
      · rw [Option.map_some, hsame]
      · exact absurd (by rw [he, Option.map_some, put, if_neg hsame]) hi
  have hlt := (List.getElem?_eq_some_iff.mp (hid hi)).1
  exact (List.getElem?_inj hlt h).mp ((hid hi).trans (hid hj).symm)

theorem exists_heldBy {pairs : List (Text × Connection)} {a : Text × Connection} (h : a ∈ pairs) :
    ∃ c, heldBy pairs a.1 = some c := by
  have hsome : (pairs.reverse.find? (·.1 = a.1)).isSome = true :=
    List.find?_isSome.mpr ⟨a, List.mem_reverse.mpr h, by simp⟩
  obtain ⟨found, hfound⟩ := Option.isSome_iff_exists.mp hsome
  exact ⟨found.2, by rw [heldBy, hfound]; rfl⟩

/-- What `Sound` says of the ids. -/
theorem Sound.named (h : Sound toLowerCase lenient existing items st) {id : Text} (hid : id ∈ st.ids) :
    ∃ c, heldBy (assigned lenient items st) id = some c ∧ { c with id := id } ∈ st.list := by
  obtain ⟨i, hi, rfl⟩ := List.getElem_of_mem hid
  have hi' : i < (items.filterMap (accepted lenient)).length := h.length ▸ hi
  have hmem : (st.ids[i], (items.filterMap (accepted lenient))[i]) ∈ assigned lenient items st := by
    have hzip : i < (assigned lenient items st).length := by
      rw [assigned, List.length_zip]
      exact lt_min hi hi'
    have hget : (assigned lenient items st)[i] = (st.ids[i], (items.filterMap (accepted lenient))[i]) :=
      List.getElem_zip
    exact hget ▸ List.getElem_mem hzip
  obtain ⟨c, hc⟩ := exists_heldBy hmem
  obtain ⟨k, hk, hkey, -⟩ := mem_of_targetOf toLowerCase (h.targets _ hmem)
  obtain ⟨e, he, rfl⟩ := List.mem_map.mp hk
  have hidE : e.id = st.ids[i] := hkey
  have hsettled := h.settled e he
  rw [foldl_put_eq, hidE, hc] at hsettled
  rw [← hsettled] at he
  exact ⟨c, hc, he⟩

end

/-- A saved file of SQLite. -/
def savedAs (id : String) : Connection where
  id := id.toList
  name := "a".toList
  driver := "sqlite".toList
  params := [("path".toList, "a.db".toList)]
  color := none
  group := none
  icon := none
  keepAlive := none
  safeMode := none
  env := none

/-- An entry without an id. -/
def newEntry : Json :=
  .obj [("id".toList, .str []), ("name".toList, .str "b".toList), ("driver".toList, .str "sqlite".toList),
    ("params".toList, .obj [("path".toList, .str "b.db".toList)])]

end Squaero.Front.Connections
