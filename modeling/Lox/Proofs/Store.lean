import Lox.Machine

/-!
# Frames of a store

What binding a name and adding a frame do to each frame of a store, and which
names are bound after several were.
-/

namespace Lox

namespace Store

variable {store : Store} {i j : Nat} {x y : String} {v : Value}

/-- Binding a name in a frame leaves the other frames as they are. -/
theorem frame_bindIn_of_ne (h : j ≠ i) : (store.bindIn i x v).frame j = store.frame j := by
  simp only [frame, bindIn, Array.getD_eq_getD_getElem?, Array.getElem?_modify]
  rw [if_neg (Ne.symm h)]

/-- Binding a name in a frame inserts it there. -/
theorem frame_bindIn_self (h : i < store.frames.size) :
    (store.bindIn i x v).frame i = (store.frame i).insert x v := by
  simp only [frame, bindIn, Array.getD_eq_getD_getElem?, Array.getElem?_modify]
  rw [if_pos trivial, Array.getElem?_eq_getElem h]
  rfl

/-- Binding a name makes no frame. -/
theorem size_bindIn : (store.bindIn i x v).frames.size = store.frames.size :=
  Array.size_modify

/-- What the frames bind after a name was bound in one of them. -/
theorem get?_bindIn (h : i < store.frames.size) :
    ((store.bindIn i x v).frame j).get? y =
      if j = i ∧ y = x then some v else (store.frame j).get? y := by
  by_cases hj : j = i
  · rw [hj, frame_bindIn_self h, Bindings.get?_insert]
    simp
  · rw [frame_bindIn_of_ne hj, if_neg fun hji => hj hji.1]

/-- A new frame leaves the frames before it as they are. -/
theorem frame_newFrame_of_lt {bindings : Bindings} {env : Env} (h : j < store.frames.size) :
    (store.newFrame env bindings).2.frame j = store.frame j := by
  simp only [frame, newFrame, Array.getD_eq_getD_getElem?]
  rw [Array.getElem?_push_lt h, Array.getElem?_eq_getElem h]

/-- A new frame has the bindings that it was made with. -/
theorem frame_newFrame_self {bindings : Bindings} {env : Env} :
    (store.newFrame env bindings).2.frame store.frames.size = bindings := by
  simp [frame, newFrame, Array.getD_eq_getD_getElem?]

/-- A frame has a name. -/
def Binds (store : Store) (i : Nat) (x : String) : Prop := ((store.frame i).get? x).isSome

/-- A frame that has a value for a name binds it. -/
theorem Binds.of_get? (h : (store.frame i).get? x = some v) : store.Binds i x := by
  rw [Binds, h]
  rfl

/-- Only frames that are there have names. -/
theorem Binds.lt_size (h : store.Binds i x) : i < store.frames.size := by
  refine Nat.lt_of_not_le fun hi => ?_
  have hnone : store.frame i = [] := by
    simp [frame, Array.getD_eq_getD_getElem?, Array.getElem?_eq_none hi]
  rw [Binds, hnone] at h
  cases h

/-- Binding a name in a frame changes no other name, and in a frame that is not there
nothing. -/
theorem get?_of_bindIn {u : Value} (h : ((store.bindIn i x v).frame j).get? y = some u) :
    u = v ∨ (store.frame j).get? y = some u := by
  by_cases hi : i < store.frames.size
  · rw [get?_bindIn hi] at h
    split at h
    · cases h
      exact .inl rfl
    · exact .inr h
  · refine .inr ?_
    have hbound : (store.bindIn i x v).Binds j y := .of_get? h
    have hj : j ≠ i := by
      have hlt := hbound.lt_size
      rw [size_bindIn] at hlt
      omega
    rwa [frame_bindIn_of_ne hj] at h

/-- A new frame leaves all other frames as they are, also those that are not there. -/
theorem frame_newFrame_of_ne {bindings : Bindings} {env : Env} (h : j ≠ store.frames.size) :
    (store.newFrame env bindings).2.frame j = store.frame j := by
  simp only [frame, newFrame, Array.getD_eq_getD_getElem?, Array.getElem?_push]
  rw [if_neg h]

/-- A new frame is one more. -/
theorem size_newFrame {bindings : Bindings} {env : Env} :
    (store.newFrame env bindings).2.frames.size = store.frames.size + 1 :=
  Array.size_push _

/-- Setting a field changes no other, and on an object that is not there nothing. -/
theorem field?_of_setField {object other : Nat} {u : Value}
    (h : (store.setField object x v).field? other y = some u) :
    u = v ∨ store.field? other y = some u := by
  unfold field? setField at h
  simp only [Array.getD_eq_getD_getElem?, Array.getElem?_modify] at h
  split at h
  · rename_i hsame
    cases hold : store.fields[other]? with
    | none =>
      rw [hold] at h
      cases h
    | some bindings =>
      rw [hold, Option.map_some, Option.getD_some, Bindings.get?_insert] at h
      split at h
      · cases h
        exact .inl rfl
      · refine .inr ?_
        rw [field?, Array.getD_eq_getD_getElem?, hold]
        exact h
  · refine .inr ?_
    rw [field?, Array.getD_eq_getD_getElem?]
    exact h

/-- A new object has no fields. -/
theorem field?_of_newObject {object : Nat} (h : store.newObject.2.field? object x = some v) :
    store.field? object x = some v := by
  unfold field? newObject at h
  simp only [Array.getD_eq_getD_getElem?, Array.getElem?_push] at h
  split at h
  · cases h
  · rw [field?, Array.getD_eq_getD_getElem?]
    exact h

/-- What is found at a distance is what the frame there has. -/
theorem frameAt_eq_ok {env : Env} {d : Nat} : store.frameAt env d x = .ok (i, v) ↔
    ∃ rest, env.drop d = i :: rest ∧ (store.frame i).get? x = some v := by
  unfold frameAt
  cases env.drop d with
  | nil => simp
  | cons j rest =>
    dsimp only
    cases hget : (store.frame j).get? x with
    | none =>
      constructor
      · intro h
        cases h
      · rintro ⟨_, ⟨⟩, hv⟩
        rw [hget] at hv
        cases hv
    | some u =>
      constructor
      · intro h
        cases h
        exact ⟨rest, rfl, hget⟩
      · rintro ⟨_, ⟨⟩, hv⟩
        rw [hget] at hv
        cases hv
        rfl

/-- The value at a distance is that of the frame which is so many steps up the chain. -/
theorem getAt_eq_ok {env : Env} {d : Nat} : store.getAt env d x = .ok v ↔
    ∃ i rest, env.drop d = i :: rest ∧ (store.frame i).get? x = some v := by
  unfold getAt
  constructor
  · intro h
    cases hframe : store.frameAt env d x with
    | error fault =>
      rw [hframe] at h
      cases h
    | ok found =>
      rw [hframe] at h
      cases h
      exact ⟨found.1, frameAt_eq_ok.1 hframe⟩
  · rintro ⟨i, rest, hdrop, hv⟩
    rw [frameAt_eq_ok.2 ⟨rest, hdrop, hv⟩]
    rfl

/-- What is found at a distance is the value that the frame found there has. -/
theorem get?_of_frameAt {env : Env} {d : Nat} (h : store.frameAt env d x = .ok (i, v)) :
    (store.frame i).get? x = some v := by
  obtain ⟨rest, -, hv⟩ := frameAt_eq_ok.1 h
  exact hv

/-- A value at a distance is the value of some frame. -/
theorem get?_of_getAt {env : Env} {d : Nat} (h : store.getAt env d x = .ok v) :
    ∃ i, (store.frame i).get? x = some v := by
  obtain ⟨i, rest, -, hv⟩ := getAt_eq_ok.1 h
  exact ⟨i, hv⟩

/-- The frame that holds a name binds it. -/
theorem binds_of_holder? {env : Env} (h : store.holder? env x = some i) : store.Binds i x := by
  unfold holder? at h
  exact List.find?_some (p := fun i => ((store.frame i).get? x).isSome) h

end Store

/-! ### Names bound one after another -/

/-- Names that are not inserted keep their values. -/
theorem Bindings.get?_insertAll_of_notMem {added : List (String × Value)} {bindings : Bindings}
    {x : String} (hx : x ∉ added.map (·.1)) :
    (Bindings.insertAll bindings added).get? x = bindings.get? x := by
  induction added generalizing bindings with
  | nil => rfl
  | cons head rest ih =>
    rw [List.map_cons, List.mem_cons, not_or] at hx
    change (Bindings.insertAll (bindings.insert head.1 head.2) rest).get? x = _
    rw [ih hx.2, Bindings.get?_insert, if_neg hx.1]

/-- Names that are all different keep their values. -/
theorem Bindings.get?_insertAll {added : List (String × Value)} {bindings : Bindings}
    (hadded : (added.map (·.1)).Nodup) {x : String} {v : Value} (hx : (x, v) ∈ added) :
    (Bindings.insertAll bindings added).get? x = some v := by
  induction added generalizing bindings with
  | nil => cases hx
  | cons head rest ih =>
    rw [List.map_cons, List.nodup_cons] at hadded
    change (Bindings.insertAll (bindings.insert head.1 head.2) rest).get? x = _
    cases hx with
    | head => rw [get?_insertAll_of_notMem hadded.1, Bindings.get?_insert, if_pos rfl]
    | tail _ hx => exact ih hadded.2 hx

/-- A value after an insertion was there before, or it was inserted. -/
theorem Bindings.get?_of_insertAll {added : List (String × Value)} {bindings : Bindings}
    {x : String} {v : Value} (h : (Bindings.insertAll bindings added).get? x = some v) :
    bindings.get? x = some v ∨ (x, v) ∈ added := by
  induction added generalizing bindings with
  | nil => exact .inl h
  | cons head rest ih =>
    have hrest : (Bindings.insertAll (bindings.insert head.1 head.2) rest).get? x = some v := h
    rcases ih hrest with hold | hmem
    · rw [Bindings.get?_insert] at hold
      split at hold
      · rename_i hx
        cases hold
        exact .inr (hx ▸ .head _)
      · exact .inl hold
    · exact .inr (.tail _ hmem)

end Lox
