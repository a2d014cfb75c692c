import TypeFlow.Proofs.Local
import TypeFlow.Proofs.Lowering.Chains
/-!
# Collecting keyword arguments

The keyword arguments of a call of a parsed program can be read (`mapM_readKeyword`). Each of them
gives its value to an entry of a new map literal, which hangs below the call in the end, so that the
rule lowers the call (`fires_collectKeywordArgs`). Unlike a form, the call itself stays: it is a
leaf of the new tree and its top.
-/

namespace TypeFlow

namespace Lowering

open TypeFlow.Graph Program

variable {g h : Graph} {root n x : NodeId} {busy turned leaves : List NodeId}
  {left : NodeId → List Edge} {free : Multiset NodeId} {bare : List NodeId}

/-! ## Reading -/

/-- A keyword argument holds its value and nothing else. -/
structure Reads (g : Graph) (k : Keyword) : Prop where
  kind : g.kind k.node = .surface .kwArg
  limbs : g.limbs k.node = {⟨.value, k.value⟩}

theorem Reads.parent {k : Keyword} (hk : Reads g k) (hg : g.Balanced) :
    k.node ∈ g.parents k.value :=
  (mem_parents_limbs hg).2 ⟨⟨.value, k.value⟩, by simp [hk.limbs], rfl⟩

theorem readKeyword_eq_ok (hx : shaped g x) (hk : g.kind x = .surface .kwArg) :
    ∃ k, readKeyword g x = .ok k ∧ k.node = x ∧ Reads g k := by
  simp only [shaped, hk, Bool.and_eq_true, decide_eq_true_eq] at hx
  obtain ⟨hroles, hname⟩ := hx
  obtain ⟨name, hname⟩ := Option.isSome_iff_exists.1 hname
  obtain ⟨⟨r, v⟩, harms, hr⟩ := List.map_eq_singleton_iff.1 hroles
  obtain rfl : r = .value := hr
  have hmem : (⟨.value, v⟩ : Edge) ∈ g.arms x := by simp [harms]
  have hchild : g.child? x .value = some v := by
    have hfind : (g.outgoing x).find? (·.role = .value) = (g.arms x).find? (·.role = .value) := by
      rw [arms, List.find?_filter]
      congr 1
      funext e
      by_cases he : e.role = .value <;> simp [he, Role.isStructural]
    rw [child?, hfind, harms]
    rfl
  refine ⟨⟨x, name, v⟩, ?_, rfl, hk, ?_⟩
  · rw [readKeyword, requireName_eq_ok.2 hname, Run.ok_bind, requireChild_eq_ok.2 hchild]
    rfl
  · rw [Graph.limbs, harms]
    rfl

theorem mapM_readKeyword : ∀ {xs : List NodeId},
    (∀ x ∈ xs, shaped g x ∧ g.kind x = .surface .kwArg) → ∃ ks, xs.mapM (readKeyword g) = .ok ks ∧
      ks.map Keyword.node = xs ∧ ∀ k ∈ ks, Reads g k
  | [], _ => ⟨[], rfl, rfl, nofun⟩
  | x :: xs, hxs => by
    obtain ⟨⟨hshaped, hk⟩, hxs⟩ := List.forall_mem_cons.1 hxs
    obtain ⟨k, hread, hnode, hreads⟩ := readKeyword_eq_ok hshaped hk
    obtain ⟨ks, hmore, hnodes, hall⟩ := mapM_readKeyword hxs
    refine ⟨k :: ks, ?_, by rw [List.map_cons, hnode, hnodes],
      List.forall_mem_cons.2 ⟨hreads, hall⟩⟩
    rw [List.mapM_cons, hread, Run.ok_bind, hmore]
    rfl

/-! ## Entries of the map -/

/-- A node that is not busy loses its edges. -/
theorem yields_detach (hs : Sketch g busy turned leaves left h free bare) (hx : g.has x)
    (hb : x ∉ busy) : Draft.Yields g (Draft.detach x) h fun _ h' =>
      Sketch g busy turned leaves (Function.update left x []) h' free bare := by
  obtain ⟨made, hg⟩ := hs.growth
  refine Draft.yields_edit (fun y hy => ?_) ⟨⟨made, hg.detach hx hb⟩, fun y hy => ?_, hs.nodup⟩
  · obtain rfl : y = x := by simpa [Edit.at, Mutation.names] using hy
    exact has_mono hg.size hx
  · obtain ⟨hold, hnew, hempty⟩ := hs.empty y hy
    refine ⟨hold, (has_congr (sameNodes_removeWhere x _).size).trans hnew, ?_⟩
    have harms : (h.mutate ((Edit.detach x).at g)).arms y = if y = x then [] else h.arms y :=
      arms_detach
    rw [harms, hempty, ite_self]

/-- The value of a keyword argument hangs below the map, and the argument is empty. -/
theorem yields_addEntry {map : Handle} {k : Keyword}
    (hs : Sketch g busy turned leaves left h (k.value ::ₘ map.at g ::ₘ free) [])
    (hmap : g.has (map.at g) = false) (hk : g.has k.node) (hb : k.node ∉ busy) :
    Draft.Yields g (addEntry map k) h fun _ h' =>
      Sketch g busy turned leaves (Function.update left k.node []) h' (map.at g ::ₘ free) [] := by
  unfold addEntry
  refine ((yields_node hs (k := .expr .mapEntry) rfl .none).mono fun entry h₁ ⟨_, hs₁⟩ => ?_).bind
  refine ((yields_leaf hs₁ (k := .expr .strLit) rfl (.str k.name)).mono fun key h₂ hs₂ => ?_).bind
  have hfree : key.at g ::ₘ entry.at g ::ₘ k.value ::ₘ map.at g ::ₘ free =
      key.at g ::ₘ k.value ::ₘ entry.at g ::ₘ map.at g ::ₘ free := by
    rw [Multiset.cons_swap (entry.at g)]
  refine yields_children (c := .old k.value) (hs₂.congr hfree) (Multiset.mem_cons_self _ _) rfl rfl
    (by decide) (by decide) (by decide) fun h₃ hs₃ => ?_
  refine ((yields_pushItem hs₃ (Multiset.mem_cons_self _ _) nofun (Or.inr hmap)).mono
    fun _ h₄ hs₄ => ?_).bind
  exact yields_detach hs₄ hk hb

/-- The edges that are left when some nodes lost theirs. -/
def emptied (left : NodeId → List Edge) (nodes : List NodeId) (x : NodeId) : List Edge :=
  if x ∈ nodes then [] else left x

theorem yields_addEntries {map : Handle} (hmap : g.has (map.at g) = false) :
    ∀ {ks : List Keyword} {left : NodeId → List Edge} {h : Graph},
    Sketch g busy turned leaves left h
      ((ks.map Keyword.value : List NodeId) + map.at g ::ₘ free) [] →
    (∀ k ∈ ks, g.has k.node ∧ k.node ∉ busy) →
    Draft.Yields g (ks.forM (addEntry map)) h fun _ h' =>
      Sketch g busy turned leaves (emptied left (ks.map Keyword.node)) h' (map.at g ::ₘ free) []
  | [], left, h, hs, _ => Draft.yields_pure <| by
    have hsame : emptied left ([].map Keyword.node) = left := by
      funext x
      simp [emptied]
    rw [hsame]
    simpa using hs
  | k :: ks, left, h, hs, hks => by
    obtain ⟨⟨hhas, hbusy⟩, hks⟩ := List.forall_mem_cons.1 hks
    have hfree : ((k :: ks).map Keyword.value : List NodeId) + map.at g ::ₘ free =
        k.value ::ₘ map.at g ::ₘ ((ks.map Keyword.value : List NodeId) + free) := by
      rw [List.map_cons, ← Multiset.cons_coe, Multiset.cons_add, Multiset.add_cons]
    refine ((yields_addEntry (hs.congr hfree) hmap hhas hbusy).mono fun _ h₁ hs₁ => ?_).bind
    have hrest := yields_addEntries hmap (hs₁.congr (Multiset.add_cons _ _ _).symm) hks
    have hleft : emptied (Function.update left k.node []) (ks.map Keyword.node) =
        emptied left ((k :: ks).map Keyword.node) := by
      funext x
      by_cases hx : x = k.node
      · subst hx
        simp [emptied]
      · simp [emptied, hx]
    rwa [hleft] at hrest

/-! ## The place of a call -/

theorem limbsOf_filter (p : NodeId → Prop) [DecidablePred p] (es : List Edge) :
    limbsOf (es.filter fun e => p e.node) = (limbsOf es).filter fun e => p e.node := by
  rw [limbsOf, limbsOf, Multiset.filter_coe, List.filter_map]
  rfl

/-- Two nodes of a tree are not parents of each other. -/
theorem not_mutual_parents {y : NodeId} (hp : Parsed g root) (hx : g.Below root x)
    (hxy : x ∈ g.parents y) : y ∉ g.parents x := by
  intro hyx
  have hy : g.Below root y := hp.below_limb hx hxy
  refine not_below_of_closed hp.balanced (P := fun z => z = x ∨ z = y) ?_ ?_ x hx (Or.inl rfl)
  · rintro z (rfl | rfl) w hw
    · exact Or.inr (hp.parent_unique hx hw hyx)
    · exact Or.inl (hp.parent_unique hy hw hxy)
  · rintro (h | h)
    · exact hp.ne_root_of_parent hyx h.symm
    · exact hp.ne_root_of_parent hxy h.symm

/-- The keyword arguments of a call are those of its children. -/
theorem mem_keywords_iff (hp : Parsed g root) (hn : g.Below root n) :
    x ∈ (g.items n).filter (isKwArg g) ↔ n ∈ g.parents x ∧ g.kind x = .surface .kwArg := by
  rw [List.mem_filter, isKwArg, decide_eq_true_iff]
  refine and_congr_left fun hk => ⟨fun hx => ?_, fun hx => ?_⟩
  · obtain ⟨r, hr, he⟩ := mem_items.1 hx
    exact (mem_parents_limbs hp.balanced).2 (exists_limb he (Role.isStructural_of_isItem hr))
  · obtain ⟨e, he, rfl⟩ := (mem_parents_limbs hp.balanced).1 hx
    obtain ⟨f, hf, rfl⟩ := mem_limbsOf.1 he
    have hitem := ((admits_iff.1 (hp.admits n hn f hf)).2 hk).2
    exact mem_items.2 ⟨f.role, hitem, (mem_arms.1 hf).1⟩

/-- The value of a keyword argument is no part of a form itself. -/
theorem Reads.isPart_value {k : Keyword} (hk : Reads g k) (hp : Parsed g root)
    (hbelow : g.Below root k.node) : isPart (g.kind k.value) = false := by
  have hlimb : (⟨.value, k.value⟩ : Edge) ∈ g.limbs k.node := by simp [hk.limbs]
  exact hp.isPart_limb hbelow (by simp [hk.kind]) (by rw [hk.kind]; rfl) hlimb

/-- Different keyword arguments hold different values. -/
theorem nodup_values {ks : List Keyword} (hp : Parsed g root) (hks : ∀ k ∈ ks, Reads g k)
    (hbelow : ∀ k ∈ ks, g.Below root k.node) (hnodup : (ks.map Keyword.node).Nodup) :
    (ks.map Keyword.value).Nodup := by
  refine List.Nodup.map_on (fun k hk k' hk' heq => ?_) (List.Nodup.of_map _ hnodup)
  refine List.inj_on_of_nodup_map hnodup hk hk' ?_
  have hparent : k.node ∈ g.parents k.value := (hks k hk).parent hp.balanced
  have hparent' : k'.node ∈ g.parents k.value := heq ▸ (hks k' hk').parent hp.balanced
  exact hp.parent_unique (hp.below_limb (hbelow k hk) hparent) hparent hparent'

theorem site_of_call (hp : Parsed g root) (hn : g.Below root n) (hk : takesKeywords (g.kind n))
    {ks : List Keyword} (hnodes : ks.map Keyword.node = (g.items n).filter (isKwArg g))
    (hks : ∀ k ∈ ks, Reads g k) :
    Site g root n (ks.map Keyword.node) [n] [] (n :: ks.map Keyword.value) := by
  have hmem : ∀ x, x ∈ ks.map Keyword.node ↔ n ∈ g.parents x ∧ g.kind x = .surface .kwArg := by
    intro x
    rw [hnodes]
    exact mem_keywords_iff hp hn
  have hpart : ∀ x ∈ ks.map Keyword.node, isPart (g.kind x) := by
    intro x hx
    rw [((hmem x).1 hx).2]
    rfl
  have hparent : ∀ k ∈ ks, n ∈ g.parents k.node := fun k hk =>
    ((hmem _).1 (List.mem_map_of_mem hk)).1
  have hbelow : ∀ k ∈ ks, g.Below root k.node := fun k hk => hp.below_limb hn (hparent k hk)
  have hleaf : ∀ x ∈ n :: ks.map Keyword.value, isPart (g.kind x) = false := by
    refine List.forall_mem_cons.2 ⟨?_, fun x hx => ?_⟩
    · exact isPart_of_not_isSurface (isSurface_of_takesKeywords hk)
    · obtain ⟨k, hk, rfl⟩ := List.mem_map.1 hx
      exact (hks k hk).isPart_value hp (hbelow k hk)
  have hnodup : (ks.map Keyword.node).Nodup := by
    rw [hnodes]
    exact (nodup_items hp hn).filter _
  refine ⟨hn, ?_, Or.inr ⟨List.mem_cons_self, hk⟩, fun x hx _ => ⟨((hmem x).1 hx).1, hpart x hx⟩,
    fun x hx hxn => ?_, fun x hx hgone => ?_,
    List.nodup_cons.2 ⟨fun hmemv => ?_, nodup_values hp hks hbelow hnodup⟩, fun y hy x hx => ?_,
    fun x hx hkw => (hmem x).2 ⟨hx, hkw⟩, fun x hx => ?_, nofun⟩
  · rintro rfl
    rw [hp.program] at hk
    cases hk
  · obtain ⟨k, hk, rfl⟩ := List.mem_map.1 ((List.mem_cons.1 hx).resolve_left hxn)
    exact ⟨⟨k.node, List.mem_map_of_mem hk, (hks k hk).parent hp.balanced⟩, hleaf _ hx⟩
  · cases (hpart x hgone).symm.trans (hleaf x hx)
  · obtain ⟨k, hkmem, hkn⟩ := List.mem_map.1 hmemv
    have hparents := (hks k hkmem).parent hp.balanced
    rw [hkn] at hparents
    exact not_mutual_parents hp (hbelow k hkmem) hparents (hparent k hkmem)
  · obtain ⟨k, hk, rfl⟩ := List.mem_map.1 hy
    obtain ⟨e, he, rfl⟩ := (mem_parents_limbs hp.balanced).1 hx
    rw [(hks k hk).limbs, Multiset.mem_singleton] at he
    subst he
    exact Or.inr (List.mem_cons_of_mem n (List.mem_map_of_mem hk))
  · obtain rfl := List.mem_singleton.1 hx
    exact isSurface_of_takesKeywords hk

/-! ## The rule -/

/-- The limbs of a call that lead to no keyword argument: all but its items, and its positional
arguments. -/
theorem limbs_positional (hp : Parsed g root) (hn : g.Below root n) {gone : List NodeId}
    (hgone : gone = (g.items n).filter (isKwArg g)) :
    (g.limbs n).filter (fun e => e.node ∉ gone) =
      limbsOf ((g.arms n).filter fun e => !e.role.isItem) +
        (((g.items n).filter fun x => !isKwArg g x).map fun x => (⟨.item 0, x⟩ : Edge) :
          List Edge) := by
  rw [limbs_eq_items, Multiset.filter_add]
  refine congrArg₂ (· + ·) (Multiset.filter_eq_self.2 fun e he hmem => ?_) ?_
  · -- a keyword argument is an item
    obtain ⟨f, hf, rfl⟩ := mem_limbsOf.1 he
    obtain ⟨hf, hitem⟩ := List.mem_filter.1 hf
    rw [hgone, mem_keywords_iff hp hn] at hmem
    have hadmits := ((admits_iff.1 (hp.admits n hn f hf)).2 hmem.2).2
    rw [hadmits] at hitem
    cases hitem
  · rw [Multiset.filter_coe, List.filter_map]
    refine congrArg _ (congrArg _ (List.filter_congr fun x hx => ?_))
    simp [hgone, hx]

/-- The rule reads the keyword arguments of a call of a parsed program. -/
theorem effect_collectKeywordArgs (hp : Parsed g root) (hn : g.Below root n) : ∃ ks : List Keyword,
    ks.map Keyword.node = (g.items n).filter (isKwArg g) ∧ (∀ k ∈ ks, Reads g k) ∧
      collectKeywordArgs.effect g n = .ok (some (Draft.patch do
        Draft.clearItems n
        ((g.items n).filter fun arg => !isKwArg g arg).forM fun arg => Draft.pushItem n arg
        let map ← Draft.node (.expr .mapLit) .none
        ks.forM (addEntry map)
        Draft.pushItem n map)) := by
  have hkeyword : ∀ x ∈ (g.items n).filter (isKwArg g),
      shaped g x ∧ g.kind x = .surface .kwArg := by
    intro x hx
    obtain ⟨hparent, hkind⟩ := (mem_keywords_iff hp hn).1 hx
    exact ⟨hp.shaped x (hp.below_limb hn hparent), hkind⟩
  obtain ⟨ks, hread, hnodes, hks⟩ := mapM_readKeyword hkeyword
  refine ⟨ks, hnodes, hks, ?_⟩
  simp only [collectKeywordArgs, hread, Run.ok_bind]
  rfl

theorem fires_collectKeywordArgs (hp : Parsed g root) (hn : g.Below root n)
    (hk : takesKeywords (g.kind n)) : Fires collectKeywordArgs g root n := by
  obtain ⟨ks, hnodes, hks, heffect⟩ := effect_collectKeywordArgs hp hn
  have hsite := site_of_call hp hn hk hnodes hks
  have hhas : g.has n := hp.has_below hn
  refine ⟨_, heffect, ?_⟩
  let kept := (g.arms n).filter fun e => e.node ∉ ks.map Keyword.node
  let left := emptied (Function.update g.arms n kept) (ks.map Keyword.node)
  suffices hd : Draft.Yields g _ g fun _ h' =>
      ∃ made, Growth g [n] [] (n :: ks.map Keyword.value) left h' made {n} by
    obtain ⟨g', hrun, hbalanced, made, hg⟩ := hd.run_commit hp.balanced
    have hself : n ∉ ks.map Keyword.node := hsite.apart n List.mem_cons_self
    refine ⟨g', hrun, Surgery.lowers ⟨hsite, hg, hbalanced, fun _ => rfl, fun x hx => ?_,
      fun x hx hxn => ?_, fun _ => ?_⟩ hp⟩
    · simp [left, emptied, hx]
    · have hid : (Edge.redirect n n) = id := funext fun e => Edge.redirect_self
      rw [hid, List.map_id]
      simp only [left, emptied, if_neg hx, Function.update_of_ne hxn]
    · simp only [left, emptied, if_neg hself, Function.update_self]
      exact limbsOf_filter (fun x => x ∉ ks.map Keyword.node) (g.arms n)
  have hcleared : SameNodes g (g.clearItems n) := sameNodes_removeWhere n _
  refine (Draft.yields_edit (fun x hx => ?_) ?_).bind
  · obtain rfl : x = n := by simpa [Edit.at, Mutation.names] using hx
    exact hhas
  refine ((yields_pushAll n (h := g.clearItems n) ?_ fun a ha => ?_).mono
    fun _ h₁ hpushed => ?_).bind
  · rwa [has_congr hcleared.size]
  · rw [has_congr hcleared.size]
    exact hp.balanced.has_item (List.mem_filter.1 ha).1
  -- the call has its positional arguments back, and all else of the graph is as before
  obtain ⟨hsame, hothers, hlimbs⟩ := hpushed
  have hothers' : ∀ x, x ≠ n → h₁.arms x = g.arms x := by
    intro x hx
    rw [hothers x hx, arms_clearItems, if_neg hx]
  have hs₁ : Sketch g [n] [] (n :: ks.map Keyword.value) (Function.update g.arms n kept) h₁
      (n :: ks.map Keyword.value : List NodeId) [] := by
    refine ⟨⟨0, (growth_refl fun x hx => hsite.has_leaf hp hx).rearm (hcleared.trans hsame) hothers'
      ?_ (Or.inl (List.mem_singleton_self n))⟩, List.forall_mem_nil _, List.nodup_nil⟩
    rw [hlimbs, limbs_clearItems, ← limbs_positional hp hn hnodes]
    exact ((add_zero _).trans
      (limbsOf_filter (fun x => x ∉ ks.map Keyword.node) (g.arms n))).symm
  refine ((yields_node hs₁ (k := .expr .mapLit) rfl .none).mono fun map h₂ hnode => ?_).bind
  obtain ⟨hmap, hs₂⟩ := hnode
  have hfree : map.at g ::ₘ ((n :: ks.map Keyword.value : List NodeId) : Multiset NodeId) =
      (ks.map Keyword.value : List NodeId) + map.at g ::ₘ {n} := by
    rw [Multiset.add_cons, ← Multiset.cons_coe, add_comm, Multiset.singleton_add]
  refine ((yields_addEntries hmap (hs₂.tail.congr hfree) fun k hk => ?_).mono
    fun _ h₃ hs₃ => ?_).bind
  · have hgone : k.node ∈ ks.map Keyword.node := List.mem_map_of_mem hk
    refine ⟨hp.has_below (hsite.below_gone hp hgone), fun hkn => ?_⟩
    exact hsite.apart n List.mem_cons_self (List.mem_singleton.1 hkn ▸ hgone)
  · exact (yields_pushItem (a := .old n) hs₃ (Multiset.mem_singleton_self n) List.not_mem_nil
      (Or.inl (List.mem_singleton_self n))).mono fun _ h' hs' => hs'.growth

end Lowering

end TypeFlow
