import TypeFlow.Proofs.Flow.Seeding
/-!
# Which nodes share bounds

Nodes that are no references get slots of their own, and a reference shares that of its
definition. So two nodes share bounds if they have one `home` (`slot?_bindAll_eq_iff`), in
whatever order they were bound.
-/

namespace TypeFlow

namespace Flow

variable {g : Graph} {t : BoundsTable} {nodes : List NodeId} {n m d : NodeId}

/-- The node whose bounds a node has: its definition if it is a reference, else itself. -/
def home (g : Graph) (n : NodeId) : NodeId := (definition? g n).getD n

/-- No two nodes share a slot, and all slots were made. -/
structure Apart (t : BoundsTable) : Prop where
  made : ∀ n s, t.slot? n = some s → s.index < t.size
  apart : ∀ n m, (t.slot? n).isSome → t.slot? n = t.slot? m → n = m

theorem apart_empty : Apart .empty where
  made n s h := by simp [BoundsTable.empty, BoundsTable.slot?] at h
  apart n m h := by simp [BoundsTable.empty, BoundsTable.slot?] at h

/-- A new slot is no other node's. -/
theorem Apart.fresh (ht : Apart t) (n : NodeId) : Apart (t.fresh n) where
  made m s h := by
    rw [BoundsTable.slot?_fresh] at h
    rw [BoundsTable.size_fresh]
    split at h
    · obtain rfl := Option.some.inj h
      exact Nat.lt_succ_self _
    · exact Nat.lt_succ_of_lt (ht.made m s h)
  apart k m hk h := by
    have hnew : ∀ m, t.slot? m ≠ some t.nextSlot := fun m hm =>
      Nat.lt_irrefl _ (ht.made m _ hm)
    rw [BoundsTable.slot?_fresh] at hk h
    rw [BoundsTable.slot?_fresh] at h
    by_cases hkn : k = n
    · by_cases hmn : m = n
      · rw [hkn, hmn]
      · rw [if_pos hkn, if_neg hmn] at h
        exact absurd h.symm (hnew m)
    · rw [if_neg hkn] at hk h
      by_cases hmn : m = n
      · rw [if_pos hmn] at h
        exact absurd h (hnew k)
      · rw [if_neg hmn] at h
        exact ht.apart k m hk h

theorem apart_foldl_fresh (ht : Apart t) : Apart (nodes.foldl BoundsTable.fresh t) := by
  induction nodes generalizing t with
  | nil => exact ht
  | cons n ns ih => exact ih (ht.fresh n)

theorem isSome_slot?_foldl_fresh :
    ((nodes.foldl BoundsTable.fresh t).slot? m).isSome ↔ m ∈ nodes ∨ (t.slot? m).isSome := by
  induction nodes generalizing t with
  | nil => simp
  | cons n ns ih =>
    rw [List.foldl_cons, ih, BoundsTable.slot?_fresh, List.mem_cons]
    split
    · next h => simp [h]
    · next h => simp [h]

theorem apart_bindOwn (g : Graph) (nodes : List NodeId) : Apart (bindOwn g .empty nodes) :=
  apart_foldl_fresh apart_empty

theorem isSome_slot?_bindOwn :
    ((bindOwn g .empty nodes).slot? m).isSome ↔ m ∈ nodes ∧ definition? g m = none := by
  rw [bindOwn, isSome_slot?_foldl_fresh]
  simp [BoundsTable.empty, BoundsTable.slot?]

/-- Definitions are listed, and are no references. -/
def Defined (g : Graph) (nodes : List NodeId) : Prop :=
  ∀ n ∈ nodes, ∀ d, definition? g n = some d → d ∈ nodes ∧ definition? g d = none

/-- What binding references does to a table: all but the references keep their slots, and these
get the slot of their definition. -/
structure Linked (g : Graph) (own t : BoundsTable) (bound : List NodeId) : Prop where
  kept : ∀ m, definition? g m = none → t.slot? m = own.slot? m
  reference : ∀ m d, definition? g m = some d →
    t.slot? m = if m ∈ bound then own.slot? d else none

theorem linked_foldl {own : BoundsTable} : ∀ {refs bound : List NodeId} {t : BoundsTable},
    (∀ n ∈ refs, ∀ d, definition? g n = some d →
      definition? g d = none ∧ (own.slot? d).isSome) → Linked g own t bound →
      Linked g own (refs.foldl (bindReference g) t) (refs ++ bound)
  | [], _, _, _, ht => ht
  | n :: refs, bound, t, hdefined, ht => by
    obtain ⟨hn, hrefs⟩ := List.forall_mem_cons.1 hdefined
    have hstep : Linked g own (bindReference g t n) (n :: bound) := by
      cases hdef : definition? g n with
      | none =>
        simp only [bindReference, hdef]
        refine ⟨ht.kept, fun m d hm => ?_⟩
        have hne : m ≠ n := fun h => by simp [h, hdef] at hm
        rw [ht.reference m d hm]
        simp [hne]
      | some d =>
        obtain ⟨hd, hslot⟩ := hn d hdef
        obtain ⟨s, hs⟩ := Option.isSome_iff_exists.1 hslot
        simp only [bindReference, hdef, (ht.kept d hd).trans hs]
        refine ⟨fun m hm => ?_, fun m d' hm => ?_⟩
        · have hne : m ≠ n := fun h => by simp [h, hdef] at hm
          rw [BoundsTable.slot?_share, if_neg hne]
          exact ht.kept m hm
        · rw [BoundsTable.slot?_share]
          by_cases hne : m = n
          · subst hne
            obtain rfl := Option.some.inj (hdef.symm.trans hm)
            simp [hs]
          · rw [if_neg hne, ht.reference m d' hm]
            simp [hne]
    have hend := linked_foldl hrefs hstep
    refine ⟨hend.kept, fun m d hm => ?_⟩
    rw [List.foldl_cons, hend.reference m d hm]
    simp [or_left_comm]

theorem linked_bindAll (hdefined : Defined g nodes) :
    Linked g (bindOwn g .empty nodes) (bindAll g nodes) nodes := by
  have hend : Linked g (bindOwn g .empty nodes) (bindAll g nodes) (nodes ++ []) := by
    refine linked_foldl (fun n hn d hd => ?_) ⟨fun _ _ => rfl, fun m d hm => ?_⟩
    · obtain ⟨hmem, hnone⟩ := hdefined n hn d hd
      exact ⟨hnone, isSome_slot?_bindOwn.2 ⟨hmem, hnone⟩⟩
    · have hunbound : ((bindOwn g .empty nodes).slot? m).isSome = false := by
        rw [Bool.eq_false_iff]
        exact fun h => by simp [(isSome_slot?_bindOwn.1 h).2] at hm
      simpa using hunbound
  simpa using hend

/-- A listed node has the slot of its home, and another one has none. -/
theorem slot?_bindAll (hdefined : Defined g nodes) : (bindAll g nodes).slot? n =
    if n ∈ nodes then (bindOwn g .empty nodes).slot? (home g n) else none := by
  have hlinked := linked_bindAll hdefined
  cases hdef : definition? g n with
  | none =>
    rw [hlinked.kept n hdef, home, hdef, Option.getD_none]
    split
    · rfl
    · next hn =>
      exact Option.not_isSome_iff_eq_none.1 fun h => hn (isSome_slot?_bindOwn.1 h).1
  | some d => rw [hlinked.reference n d hdef, home, hdef, Option.getD_some]

/-- Of listed nodes, those with one home share a slot. -/
theorem slot?_bindAll_eq_iff (hdefined : Defined g nodes) (hn : n ∈ nodes) (hm : m ∈ nodes) :
    (bindAll g nodes).slot? n = (bindAll g nodes).slot? m ↔ home g n = home g m := by
  rw [slot?_bindAll hdefined, slot?_bindAll hdefined, if_pos hn, if_pos hm]
  refine ⟨fun h => (apart_bindOwn g nodes).apart _ _ ?_ h, fun h => by rw [h]⟩
  rw [isSome_slot?_bindOwn]
  cases hdef : definition? g n with
  | none => simpa [home, hdef] using hn
  | some d => simpa [home, hdef] using hdefined n hn d hdef

theorem mem_of_isSome_slot?_bindAll (hdefined : Defined g nodes)
    (h : ((bindAll g nodes).slot? n).isSome) : n ∈ nodes := by
  by_contra hn
  rw [slot?_bindAll hdefined, if_neg hn] at h
  cases h

end Flow

end TypeFlow
