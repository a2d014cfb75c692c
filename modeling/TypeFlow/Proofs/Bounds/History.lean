import Mathlib.Logic.Function.Basic
import TypeFlow.Proofs.Bounds.Direct
/-!
# Bounds by their history

A client of a table makes slots, binds nodes to them, widens and narrows slots, and puts updates
together, several at a time, each request against the table as it is then, to apply them later
(`Session`, `Action`). A `Ledger` notes the slots, the bindings and what was asked for, and knows
neither bounds nor tests. As long as a client keeps to slots that were made and to canonical sets,
no action fails, and bounds are what the ledger tells: each slot shows the union of all sets that it
was widened by and permits the intersection of all sets that it was narrowed to, in whatever order,
in whatever grouping and how often they came (`bounds_of_updates`).

An update leaves out what changed nothing when it was asked for (`Abridges`). Since bounds only take
up more, that changes nothing later either (`Abridges.mono`).
-/

namespace TypeFlow

/-! ## Sessions -/

/-- A table, and the updates in the making, by number. -/
structure Session where
  table : BoundsTable
  updates : Nat → Update

/-- What a client can do. -/
inductive Action where
  | fresh (n : NodeId)
  | share (n : NodeId) (s : Slot)
  | widen (s : Slot) (types : TypeSet)
  | narrow (s : Slot) (types : TypeSet)
  /-- Have an update take up a request, against the table as it is. -/
  | ask (number : Nat) (request : Request)
  | apply (number : Nat)

namespace Session

/-- An empty table and empty updates. -/
def initial : Session := ⟨.empty, fun _ => .empty⟩

/-- Do something to the table. -/
def onTable {α : Type} (x : Run BoundsTable α) : Run Session Unit := do
  let S ← get
  match x.run S.table with
  | (.ok _, t) => set { S with table := t }
  | (.error fault, _) => throw fault

end Session

/-- Act. -/
def Action.perform : Action → Run Session Unit
  | .fresh n => modify fun S => { S with table := S.table.fresh n }
  | .share n s => modify fun S => { S with table := S.table.share n s }
  | .widen s types => Session.onTable (BoundsTable.widen s types)
  | .narrow s types => Session.onTable (BoundsTable.narrow s types)
  | .ask i r => modify fun S =>
    { S with updates := Function.update S.updates i (Update.ask S.table (S.updates i) r) }
  | .apply i => do Session.onTable ((← get).updates i).apply

/-- Act in turn. -/
def Action.performAll : List Action → Run Session Unit
  | [] => return ()
  | a :: as => do
    a.perform
    performAll as

/-! ## Ledgers -/

/-- What was done to a table and asked of updates. -/
structure Ledger where
  /-- The number of slots that were made. -/
  size : Nat
  /-- The slot that a node was last bound to. -/
  slot? : NodeId → Option Slot
  /-- Everything asked of an update, with the slot that the node was bound to at the time. -/
  asked : Nat → Update
  /-- Everything that slots were widened by and narrowed to. -/
  made : Update

namespace Ledger

/-- The ledger without entries. -/
def initial : Ledger := ⟨0, fun _ => none, fun _ => .empty, .empty⟩

/-- Note an action. -/
def note (L : Ledger) : Action → Ledger
  | .fresh n => { L with size := L.size + 1, slot? := Function.update L.slot? n (some ⟨L.size⟩) }
  | .share n s => { L with slot? := Function.update L.slot? n (some s) }
  | .widen s types => { L with made := L.made.append ⟨[(s, types)], []⟩ }
  | .narrow s types => { L with made := L.made.append ⟨[], [(s, types)]⟩ }
  | .ask i r =>
    { L with asked := Function.update L.asked i ((L.asked i).append (.unfiltered L.slot? [r])) }
  | .apply i => { L with made := L.made.append (L.asked i) }

/-- An action keeps to slots that were made and to canonical sets: those that pass the check and
whose unions have two operands at least, in ascending order (`TypeSet.canonical_iff`). -/
def Allows (L : Ledger) : Action → Prop
  | .fresh _ | .apply _ => True
  | .share _ s => s.index < L.size
  | .widen s types | .narrow s types => s.index < L.size ∧ types.Canonical
  | .ask _ r => r.Canonical

/-- Each action keeps to them in its turn. -/
def AllowsAll : Ledger → List Action → Prop
  | _, [] => True
  | L, a :: as => L.Allows a ∧ (L.note a).AllowsAll as

/-- Nodes are bound as noted and read the bounds of their slot, and bounds are put together, in any
order and grouping, from the sets that are noted for the slot. -/
structure Tells (L : Ledger) (t : BoundsTable) : Prop where
  size : t.size = L.size
  slot : ∀ n, t.slot? n = L.slot? n
  node : ∀ n s, L.slot? n = some s → t.of? n = some (t.get s)
  shown : ∀ s (g : TypeSet.Grouping), (∀ x, x ∈ g.members ↔ (s, x) ∈ L.made.widen) →
    (t.get s).shown = g.value .union .empty
  permitted : ∀ s (g : TypeSet.Grouping), (∀ x, x ∈ g.members ↔ (s, x) ∈ L.made.narrow) →
    (t.get s).permitted = g.value .inter .univ

end Ledger

namespace Update

variable {t t' : BoundsTable} {u v w : Update} {size : Nat} {s : Slot}

theorem Fits.mono (hu : u.Fits size) {size' : Nat} (h : size ≤ size') : u.Fits size' where
  widen e he := ⟨Nat.lt_of_lt_of_le (hu.widen e he).1 h, (hu.widen e he).2⟩
  narrow e he := ⟨Nat.lt_of_lt_of_le (hu.narrow e he).1 h, (hu.narrow e he).2⟩

theorem fits_empty (size : Nat) : empty.Fits size := ⟨nofun, nofun⟩

/-! ## What an update leaves out -/

/-- Bounds are all that matters. -/
theorem Abridges.of_get (h : Abridges t u v) (hget : ∀ s, t'.get s = t.get s) :
    Abridges t' u v :=
  ⟨h.widen_subset, h.narrow_subset, fun e he => by rw [hget]; exact h.widen e he,
    fun e he => by rw [hget]; exact h.narrow e he⟩

/-- What changes nothing in a table changes nothing after an update. -/
theorem Abridges.mono (h : Abridges t u v) (ht : t.Sound) (hw : w.Fits t.size)
    (hv : v.Fits t.size) : Abridges (w.result t) u v where
  widen_subset := h.widen_subset
  narrow_subset := h.narrow_subset
  widen e he := by
    rw [Update.get_result hw]
    exact (h.widen e he).imp_right fun hsame => TypeSet.pooling_union.foldl_absorbs
      (ht.canonical e.1).1 hw.canonical_widen (hv.widen e he).2 hsame
  narrow e he := by
    rw [Update.get_result hw]
    exact (h.narrow e he).imp_right fun hsame => TypeSet.pooling_inter.foldl_absorbs
      (ht.canonical e.1).2 hw.canonical_narrow (hv.narrow e he).2 hsame

/-- What an update takes up of a request is all of it that changes the table. -/
theorem Abridges.ask (h : Abridges t u v) (ht : t.Sound) {r : Request} (hr : r.Canonical) :
    Abridges t (u.ask t r) (v.append (unfiltered t.slot? [r])) := by
  rw [ask_eq_append]
  exact h.append (abridges_ofRequests ht fun q hq => by rwa [List.mem_singleton.1 hq])

end Update

/-! ## Steps -/

namespace Session

variable {S : Session}

theorem run_onTable {α : Type} {x : Run BoundsTable α} {a : α} {t : BoundsTable}
    (h : x.run S.table = (.ok a, t)) : (onTable x).run S = (.ok (), { S with table := t }) := by
  rw [onTable, Run.run_bind_of_ok Run.run_get, h]
  rfl

end Session

namespace Ledger

open Update

variable {L : Ledger} {S : Session} {a : Action}

/-- A session is kept to a ledger: the table is sound and has what the ledger notes, put together
in the order of its entries, and the updates leave out of what they were asked for only what changes
nothing. -/
structure Keeps (L : Ledger) (S : Session) : Prop where
  sound : S.table.Sound
  size : S.table.size = L.size
  slot : S.table.slot? = L.slot?
  made : L.made.Fits S.table.size
  asked : ∀ i, (L.asked i).Fits S.table.size
  get : ∀ s, S.table.get s = ⟨(setsAt s L.made.widen).foldl .union .empty,
    (setsAt s L.made.narrow).foldl .inter .univ⟩
  abridges : ∀ i, Abridges S.table (S.updates i) (L.asked i)

theorem keeps_initial : initial.Keeps .initial where
  sound := BoundsTable.sound_empty
  size := rfl
  slot := rfl
  made := fits_empty _
  asked _ := fits_empty _
  get := BoundsTable.get_empty
  abridges _ := .refl _ _

/-- Binding a node changes no bounds. -/
theorem Keeps.bind {t : BoundsTable} {size : Nat} {slot? : NodeId → Option Slot} (h : L.Keeps S)
    (ht : t.Sound) (hle : S.table.size ≤ t.size) (hsize : t.size = size) (hslot : t.slot? = slot?)
    (hget : ∀ s, t.get s = S.table.get s) :
    ({ L with size := size, slot? := slot? } : Ledger).Keeps { S with table := t } where
  sound := ht
  size := hsize
  slot := hslot
  made := h.made.mono hle
  asked i := (h.asked i).mono hle
  get s := (hget s).trans (h.get s)
  abridges i := (h.abridges i).of_get hget

/-- An update adds to the bounds what it leaves something out of. -/
theorem Keeps.result {u v : Update} (h : L.Keeps S) (hv : v.Fits S.table.size)
    (huv : Abridges S.table u v) :
    ({ L with made := L.made.append v } : Ledger).Keeps { S with table := u.result S.table } := by
  have hu := huv.fits hv
  obtain ⟨-, hsound, hsize⟩ := run_apply h.sound hu
  refine ⟨hsound, hsize.trans h.size, ?_, ?_, fun i => ?_, fun s => ?_, fun i => ?_⟩
  · exact (funext fun n => slot?_result u S.table n).trans h.slot
  · exact hsize.symm ▸ h.made.append hv
  · exact hsize.symm ▸ h.asked i
  · rw [huv.get_result h.sound hv, h.get s]
    simp [append, setsAt_append]
  · exact (h.abridges i).mono h.sound hu (h.asked i)

/-- Actions that are allowed do not fail, and sessions are kept to the ledger. -/
theorem Keeps.perform (h : L.Keeps S) (ha : L.Allows a) :
    ∃ S', a.perform.run S = (.ok (), S') ∧ (L.note a).Keeps S' := by
  cases a with
  | fresh n =>
    refine ⟨_, rfl, h.bind (h.sound.fresh n) (by simp) (by simp [h.size]) ?_ fun s => by simp⟩
    funext m
    rw [BoundsTable.slot?_fresh, Function.update_apply, h.slot, ← h.size]
    rfl
  | share n s =>
    refine ⟨_, rfl, h.bind (h.sound.share (h.size ▸ ha) n) (by simp) h.size ?_ fun _ => rfl⟩
    funext m
    rw [BoundsTable.slot?_share, Function.update_apply, h.slot]
  | widen s types =>
    have hfits : Update.Fits ⟨[(s, types)], []⟩ S.table.size :=
      ⟨by simpa using ⟨h.size ▸ ha.1, ha.2⟩, nofun⟩
    exact ⟨_, Session.run_onTable (BoundsTable.run_widen h.sound ha.2), h.result hfits (.refl _ _)⟩
  | narrow s types =>
    have hfits : Update.Fits ⟨[], [(s, types)]⟩ S.table.size :=
      ⟨nofun, by simpa using ⟨h.size ▸ ha.1, ha.2⟩⟩
    exact ⟨_, Session.run_onTable (BoundsTable.run_narrow h.sound ha.2),
      h.result hfits (.refl _ _)⟩
  | ask i r =>
    have hr : ∀ q ∈ [r], q.Canonical := fun q hq => by rwa [List.mem_singleton.1 hq]
    refine ⟨_, rfl, h.sound, h.size, h.slot, h.made, fun j => ?_, h.get, fun j => ?_⟩
    · simp only [note, Function.update_apply]
      split
      · exact (h.asked i).append (fits_unfiltered (h.slot ▸ h.sound.made) hr)
      · exact h.asked j
    · simp only [note, Function.update_apply]
      split
      · exact h.slot ▸ (h.abridges i).ask h.sound ha
      · exact h.abridges j
  | apply i =>
    obtain ⟨⟨k, hrun⟩, -⟩ := run_apply h.sound ((h.abridges i).fits (h.asked i))
    exact ⟨_, Session.run_onTable hrun, h.result (h.asked i) (h.abridges i)⟩

theorem Keeps.performAll {as : List Action} (h : L.Keeps S) (has : L.AllowsAll as) :
    ∃ S', (Action.performAll as).run S = (.ok (), S') ∧ (as.foldl note L).Keeps S' := by
  induction as generalizing L S with
  | nil => exact ⟨S, rfl, h⟩
  | cons a as ih =>
    obtain ⟨S₁, hrun, h₁⟩ := h.perform has.1
    obtain ⟨S₂, hruns, h₂⟩ := ih h₁ has.2
    exact ⟨S₂, (Run.run_bind_of_ok hrun).trans hruns, h₂⟩

/-! ## What the ledger tells -/

/-- Neither order nor grouping nor repetition matters to bounds. -/
theorem Keeps.tells (h : L.Keeps S) : L.Tells S.table where
  size := h.size
  slot n := congrFun h.slot n
  node n s hn := by rw [BoundsTable.of?_eq, h.slot, hn, Option.map_some]
  shown s g hg := by
    rw [h.get, TypeSet.pooling_union.value_eq_foldl h.made.canonical_widen]
    exact fun x => (hg x).trans mem_setsAt.symm
  permitted s g hg := by
    rw [h.get, TypeSet.pooling_inter.value_eq_foldl h.made.canonical_narrow]
    exact fun x => (hg x).trans mem_setsAt.symm

/-- The action notes no set for a slot that was not noted for it before. -/
def Spares (L : Ledger) (a : Action) (s : Slot) : Prop :=
  (∀ x, (s, x) ∈ (L.note a).made.widen → (s, x) ∈ L.made.widen) ∧
    ∀ x, (s, x) ∈ (L.note a).made.narrow → (s, x) ∈ L.made.narrow

theorem note_widen_subset (L : Ledger) (a : Action) :
    ∀ e ∈ L.made.widen, e ∈ (L.note a).made.widen := by
  intro e he
  cases a <;> simp [note, append, he]

theorem note_narrow_subset (L : Ledger) (a : Action) :
    ∀ e ∈ L.made.narrow, e ∈ (L.note a).made.narrow := by
  intro e he
  cases a <;> simp [note, append, he]

/-- A slot keeps its bounds if nothing new is asked of it. -/
theorem Keeps.get_of_spares {S' : Session} {s : Slot} (h : L.Keeps S) (h' : (L.note a).Keeps S')
    (hspares : L.Spares a s) : S'.table.get s = S.table.get s := by
  rw [h.get, h'.get]
  congr 1
  · refine TypeSet.pooling_union.foldl_eq_of_mem_iff TypeSet.canonical_empty
      h'.made.canonical_widen fun x => ?_
    rw [mem_setsAt, mem_setsAt]
    exact ⟨hspares.1 x, note_widen_subset L a _⟩
  · refine TypeSet.pooling_inter.foldl_eq_of_mem_iff TypeSet.canonical_univ
      h'.made.canonical_narrow fun x => ?_
    rw [mem_setsAt, mem_setsAt]
    exact ⟨hspares.2 x, note_narrow_subset L a _⟩

end Ledger

namespace BoundsTable

variable {t : BoundsTable} {s : Slot} {types : TypeSet}

/-- A change of a slot succeeds, tells whether it made another bound of the old one, and leaves all
other slots as they are. -/
def Reports (t : BoundsTable) (s : Slot) (change : Run BoundsTable Bool) : Prop :=
  ∃ changed t', change.run t = (.ok changed, t') ∧ (changed = true ↔ t'.get s ≠ t.get s) ∧
    ∀ s' ≠ s, t'.get s' = t.get s'

theorem reports_widen (ht : t.Sound) (hs : s.index < t.size) (htypes : types.Canonical) :
    t.Reports s (widen s types) := by
  refine ⟨_, _, run_widen ht htypes, ?_, fun s' hne => by rw [get_widenTo hs, if_neg hne]⟩
  cases hc : (t.get s).shown.unionChanges types with
  | true =>
    refine iff_of_true rfl fun hsame => ?_
    rw [get_widenTo hs, if_pos rfl] at hsame
    rw [TypeSet.unionChanges_of_union_eq (ht.canonical s).1 htypes
      (congrArg Bounds.shown hsame)] at hc
    cases hc
  | false => exact iff_of_false nofun fun hne => hne (by rw [widenTo_eq_self ht htypes hc])

theorem reports_narrow (ht : t.Sound) (hs : s.index < t.size) (htypes : types.Canonical) :
    t.Reports s (narrow s types) := by
  refine ⟨_, _, run_narrow ht htypes, ?_, fun s' hne => by rw [get_narrowTo hs, if_neg hne]⟩
  cases hc : (t.get s).permitted.interChanges types with
  | true =>
    refine iff_of_true rfl fun hsame => ?_
    rw [get_narrowTo hs, if_pos rfl] at hsame
    rw [TypeSet.interChanges_eq_false.2 (congrArg Bounds.permitted hsame)] at hc
    cases hc
  | false => exact iff_of_false nofun fun hne => hne (by rw [narrowTo_eq_self hc])

end BoundsTable

namespace Ledger

/-- Whatever a client does with slots that were made and with canonical sets, nothing fails, and the
bounds are those that the ledger tells: unions of all sets that slots were widened by and
intersections of all sets that they were narrowed to, by whichever call or update, in any order and
grouping and however often. Every further action leaves the slots alone that it asks nothing new of,
and a widening or narrowing returns whether it changed a bound. -/
theorem bounds_of_updates {actions : List Action} (h : initial.AllowsAll actions) :
    let L := actions.foldl note initial
    ∃ S, (Action.performAll actions).run .initial = (.ok (), S) ∧ L.Tells S.table ∧
      (∀ a, L.Allows a → ∃ S', a.perform.run S = (.ok (), S') ∧ (L.note a).Tells S'.table ∧
        ∀ s, L.Spares a s → S'.table.get s = S.table.get s) ∧
      ∀ s types, s.index < L.size → types.Canonical →
        S.table.Reports s (BoundsTable.widen s types) ∧
          S.table.Reports s (BoundsTable.narrow s types) := by
  intro L
  obtain ⟨S, hrun, hkeeps⟩ := keeps_initial.performAll h
  refine ⟨S, hrun, hkeeps.tells, fun a ha => ?_, fun s types hs htypes => ?_⟩
  · obtain ⟨S', hstep, hkeeps'⟩ := hkeeps.perform ha
    exact ⟨S', hstep, hkeeps'.tells, fun s hs => hkeeps.get_of_spares hkeeps' hs⟩
  · have hs : s.index < S.table.size := hkeeps.size ▸ hs
    exact ⟨BoundsTable.reports_widen hkeeps.sound hs htypes,
      BoundsTable.reports_narrow hkeeps.sound hs htypes⟩

/-- Two slots, one with two nodes, and two updates: the first is applied twice and after its
requests were overtaken, and the second has a request on a node without a slot. -/
def interleaved : List Action :=
  [.fresh ⟨1⟩, .share ⟨2⟩ ⟨0⟩, .fresh ⟨3⟩, .ask 0 (.widen ⟨2⟩ (.base .int)),
    .ask 0 (.narrow ⟨3⟩ (.base .string)), .widen ⟨0⟩ (.base .string), .apply 0,
    .ask 1 (.widen ⟨1⟩ (.base .string)), .ask 1 (.widen ⟨4⟩ (.base .bool)),
    .narrow ⟨1⟩ (.base .list), .apply 1, .apply 0]

/-- The first slot shows both its sets, through either node, and the second permits nothing. -/
theorem bounds_of_updates_interleaved : initial.AllowsAll interleaved ∧
    ∃ S, (Action.performAll interleaved).run .initial = (.ok (), S) ∧
      (S.table.get ⟨0⟩).shown = .anyOf [.base .int, .base .string] ∧
      S.table.of? ⟨1⟩ = S.table.of? ⟨2⟩ ∧ (S.table.get ⟨1⟩).permitted = .empty := by
  have hbase : ∀ b, (TypeSet.base b).Canonical := fun b => TypeSet.Proper.canonical trivial
  have hallows : initial.AllowsAll interleaved :=
    ⟨trivial, Nat.zero_lt_one, trivial, hbase .int, hbase .string, ⟨Nat.zero_lt_two, hbase .string⟩,
      trivial, hbase .string, hbase .bool, ⟨Nat.one_lt_two, hbase .list⟩, trivial, trivial, trivial⟩
  have hmade : (interleaved.foldl note initial).made =
      ⟨[(⟨0⟩, .base .string), (⟨0⟩, .base .int), (⟨0⟩, .base .string), (⟨0⟩, .base .int)],
        [(⟨1⟩, .base .string), (⟨1⟩, .base .list), (⟨1⟩, .base .string)]⟩ := rfl
  obtain ⟨S, hrun, htells, -⟩ := bounds_of_updates hallows
  refine ⟨hallows, S, hrun, ?_, ?_, ?_⟩
  · exact htells.shown ⟨0⟩ (.both (.single (.base .string)) (.single (.base .int)))
      (by simp [TypeSet.Grouping.members, hmade, or_comm])
  · rw [htells.node ⟨1⟩ ⟨0⟩ rfl, htells.node ⟨2⟩ ⟨0⟩ rfl]
  · exact htells.permitted ⟨1⟩ (.both (.single (.base .string)) (.single (.base .list)))
      (by simp [TypeSet.Grouping.members, hmade, or_comm])

end Ledger

end TypeFlow
