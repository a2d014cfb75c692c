import TypeFlow.Proofs.Program.Outline
import TypeFlow.Scope.Collect
/-!
# What a host defines

The definitions of a host, read off the graph: the members of a kind (`Scopes.member?`), and the
locals that hang below a function (`Scopes.local?`). `Scopes.localNames` are the names that the
locals of a function have to have: those that its body writes, as far as they are neither its
parameters nor fields of its class.

The tables of `Scopes.collect` say the same: looking a name up in one finds the first member of this
name (`lookup_namedMembers`), and `newNames` drops what is taken and what came before
(`newNames_eq`).
-/

namespace TypeFlow

namespace Scopes

open TypeFlow.Graph Program

variable {g c : Graph} {root host f body scope n d : NodeId} {name : String}

/-! ## Read off the graph -/

/-- The first item of a host that is of a kind and has a name. -/
def member? (g : Graph) (host : NodeId) (kind : DeclKind) (name : String) : Option NodeId :=
  (g.items host).find? fun m => g.kind m = .decl kind && g.name? m = some name

/-- The locals of a function, in the order of declaration. -/
def locals (g : Graph) (f : NodeId) : List NodeId := ((g.child? f .locals).map g.items).getD []

/-- The local of a name. -/
def local? (g : Graph) (f : NodeId) (name : String) : Option NodeId :=
  (locals g f).find? fun d => g.name? d = some name

/-- The names of the identifiers that statements in the body of a function write, in the order in
which a search downwards meets the statements. -/
def targetNames (g : Graph) (f : NodeId) : List String :=
  match g.child? f .body with
  | none => []
  | some body => (g.collect (.down body) fun n => isWrite (g.kind n)).filterMap (writtenName? g)

/-- The names of the locals that a function has to have, in order: each name once that its body
writes and that neither a parameter nor a field of the host around it has. -/
def localNames (g : Graph) (host f : NodeId) : List String :=
  ((targetNames g f).filter fun name =>
    (member? g f .param name).isNone && (member? g host .field name).isNone).eraseDups

/-- The locals of a function are new definitions of names, in their order. -/
structure Declares (g c : Graph) (f : NodeId) (names : List String) : Prop where
  names : (locals c f).map c.name? = names.map some
  kind : ∀ d ∈ locals c f, c.kind d = .decl .varDef
  isNew : ∀ d ∈ locals c f, g.has d = false

theorem mem_of_member? {kind : DeclKind} (h : member? g host kind name = some d) :
    d ∈ g.items host ∧ g.kind d = .decl kind ∧ g.name? d = some name := by
  have htest := List.find?_some h
  exact ⟨List.mem_of_find?_eq_some h, by simpa using htest⟩

theorem mem_of_local? (h : local? g f name = some d) : d ∈ locals g f ∧ g.name? d = some name :=
  ⟨List.mem_of_find?_eq_some h, by simpa using List.find?_some h⟩

theorem Declares.exists_local {names : List String} (h : Declares g c f names)
    (hname : name ∈ names) : ∃ d, local? c f name = some d := by
  have hmem : some name ∈ (locals c f).map c.name? := by
    rw [h.names]
    exact List.mem_map_of_mem hname
  obtain ⟨d, hd, hdname⟩ := List.mem_map.1 hmem
  exact Option.isSome_iff_exists.1 (List.find?_isSome.2 ⟨d, hd, by simpa using hdname⟩)

/-! ## Tables of members -/

theorem lookup_cons {defs : Definitions} {key : String} {node : NodeId} :
    List.lookup name ((key, node) :: defs) =
      if name = key then some node else defs.lookup name := by
  rw [List.lookup_cons]
  by_cases hn : name = key
  · simp [hn]
  · simp [hn, beq_false_of_ne hn]

theorem lookup_declare {defs : Definitions} {key : String} {node : NodeId} :
    (defs.declare key node).lookup name =
      (defs.lookup name).or (if name = key then some node else none) := by
  unfold Definitions.declare
  split
  · next h =>
    obtain ⟨e, he⟩ := Option.isSome_iff_exists.1 h
    by_cases hn : name = key
    · rw [hn, he, Option.some_or]
    · rw [if_neg hn, Option.or_none]
  · rw [List.lookup_append]
    by_cases hn : name = key <;> simp [lookup_cons, hn]

/-- In a table the first definition of a name counts, as it does in the list that it is made of. -/
theorem get?_tableOf (parent : NodeId) (defs : Definitions) (name : String) :
    (tableOf parent defs).get? name = defs.lookup name := by
  have hfold : ∀ (defs : Definitions) (t : ScopeTable),
      (defs.foldl (fun t d => t.declare d.1 d.2) t).get? name =
        (t.get? name).or (defs.lookup name) := by
    intro defs
    induction defs with
    | nil => intro t; simp
    | cons d defs ih =>
      intro t
      obtain ⟨key, node⟩ := d
      rw [List.foldl_cons, ih]
      change ((t.defs.declare key node).lookup name).or _ = _
      rw [lookup_declare, Option.or_assoc]
      rw [lookup_cons]
      by_cases hn : name = key <;> simp [hn, ScopeTable.get?]
  rw [tableOf, hfold]
  rfl

theorem parent?_tableOf (parent : NodeId) (defs : Definitions) :
    (tableOf parent defs).parent? = some parent := by
  have hfold : ∀ (defs : Definitions) (t : ScopeTable),
      (defs.foldl (fun t d => t.declare d.1 d.2) t).parent? = t.parent? := by
    intro defs
    induction defs with
    | nil => intro t; rfl
    | cons d defs ih => exact fun t => ih _
  exact hfold defs _

/-- Definitions under the names of their nodes are looked up by these names. -/
theorem lookup_eq_find? : ∀ {defs : Definitions}, (∀ d ∈ defs, g.name? d.2 = some d.1) →
    defs.lookup name = (defs.map Prod.snd).find? fun d => g.name? d = some name
  | [], _ => rfl
  | (key, node) :: defs, h => by
    obtain ⟨hnode, hdefs⟩ := List.forall_mem_cons.1 h
    have hkey : g.name? node = some key := hnode
    rw [List.map_cons, List.find?_cons, hkey, lookup_cons, lookup_eq_find? hdefs]
    by_cases hn : name = key
    · simp [hn]
    · simp [hn, Ne.symm hn]

/-- The members of a kind can be listed if they have names. -/
theorem namedMembers_eq_ok (g : Graph) (kind : DeclKind) (members : List NodeId)
    (h : ∀ m ∈ members, g.kind m = .decl kind → (g.name? m).isSome) :
    ∃ defs, namedMembers g kind members = .ok defs ∧
      ∀ name, defs.lookup name =
        members.find? fun m => g.kind m = .decl kind && g.name? m = some name := by
  have hlist : ∀ ms : List NodeId, (∀ m ∈ ms, (g.name? m).isSome) →
      ∃ defs, ms.mapM (fun m => do return (← g.requireName m, m)) = .ok defs ∧
        defs.map Prod.snd = ms ∧ ∀ d ∈ defs, g.name? d.2 = some d.1 := by
    intro ms
    induction ms with
    | nil => exact fun _ => ⟨[], rfl, rfl, nofun⟩
    | cons m ms ih =>
      intro hms
      obtain ⟨hm, hms⟩ := List.forall_mem_cons.1 hms
      obtain ⟨name, hname⟩ := Option.isSome_iff_exists.1 hm
      obtain ⟨defs, hdefs, hsnd, hnames⟩ := ih hms
      refine ⟨(name, m) :: defs, ?_, by simp [hsnd], List.forall_mem_cons.2 ⟨hname, hnames⟩⟩
      rw [List.mapM_cons, hdefs, requireName, hname]
      rfl
  obtain ⟨defs, hdefs, hsnd, hnames⟩ := hlist (members.filter fun m => g.kind m = .decl kind)
    fun m hm => h m (List.mem_filter.1 hm).1 (by simpa using (List.mem_filter.1 hm).2)
  refine ⟨defs, hdefs, fun name => ?_⟩
  rw [lookup_eq_find? hnames, hsnd, List.find?_filter]
  congr 1
  funext m
  simp

/-! ## Names of locals -/

/-- The names that are not taken are kept where they come first. -/
theorem newNames_eq : ∀ (taken : String → Bool) (xs : List String),
    newNames taken xs = (xs.filter fun x => !taken x).eraseDups
  | _, [] => rfl
  | taken, x :: xs => by
    rw [newNames]
    by_cases hx : taken x
    · rw [if_pos hx, newNames_eq taken xs, List.filter_cons_of_neg (by simp [hx])]
    · rw [if_neg hx, newNames_eq _ xs, List.filter_cons_of_pos (by simp [hx]),
        List.eraseDups_cons, List.filter_filter]
      congr 3
      funext y
      by_cases hy : y = x <;> simp [hy, hx]

theorem nodup_eraseDups : ∀ xs : List String, xs.eraseDups.Nodup
  | [] => List.nodup_nil
  | x :: xs => by
    rw [List.eraseDups_cons]
    exact List.nodup_cons.2 ⟨by simp, nodup_eraseDups _⟩
termination_by xs => xs.length
decreasing_by exact Nat.lt_succ_of_le (List.length_filter_le _ _)

theorem nodup_localNames (g : Graph) (host f : NodeId) : (localNames g host f).Nodup :=
  nodup_eraseDups _

theorem mem_localNames {host : NodeId} (hname : name ∈ targetNames g f)
    (hparam : member? g f .param name = none) (hfield : member? g host .field name = none) :
    name ∈ localNames g host f := by
  rw [localNames, List.mem_eraseDups, List.mem_filter]
  exact ⟨hname, by simp [hparam, hfield]⟩

theorem length_visits_down (h : g.Rooted root) (hn : g.Below root n) :
    (g.visits (.down n)).length ≤ g.size :=
  length_le_size ((walk_visits n).nodup List.nodup_nil) fun _ hm =>
    h.has_below (hn.trans (mem_visits_down.1 hm))

/-- A function has no more locals than the graph has nodes. -/
theorem length_localNames (h : g.Rooted root) (hf : g.Below root f) (host : NodeId) :
    (localNames g host f).length ≤ g.size := by
  have htargets : (targetNames g f).length ≤ g.size := by
    unfold targetNames
    split
    · exact Nat.zero_le _
    · next body hbody =>
      calc _ ≤ (g.collect (.down body) fun n => isWrite (g.kind n)).length :=
            List.length_filterMap_le _ _
        _ ≤ (g.visits (.down body)).length := List.length_filter_le _ _
        _ ≤ g.size := length_visits_down h (hf.of_child? hbody rfl)
  calc (localNames g host f).length
      ≤ (targetNames g f).length :=
        ((nodup_localNames g host f).subperm fun _ hname =>
          (List.mem_filter.1 (List.mem_eraseDups.1 hname)).1).length_le
    _ ≤ g.size := htargets

end Scopes

end TypeFlow
