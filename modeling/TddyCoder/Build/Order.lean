/-
  TddyCoder.Build.Order — a build graph assembled from manifests, and what its build orders
  list (`packages/tddy-build/src/graph.rs`).

  A graph is refused for an id declared twice, for a cycle, and for a group whose member ids
  cannot be read. In any other every target has a build order.

  Proved: `target_build_order`; `an_unread_group_is_refused` though nothing depends on itself.
-/

import TddyCoder.Build.Executor

namespace TddyCoder.Build

open TddyCoder.Graph TddyCoder.Machine TddyCoder.Table List

/-- Each target beside its id, in order of declaration. -/
structure BuildManifest where
  targets : List (String × BuildTarget)

namespace BuildGraph

def addTarget (graph : BuildGraph) (target : String × BuildTarget) : Except BuildError BuildGraph :=
  if target.1 ∈ graph then .error (.manifest ("duplicate target id: " ++ target.1))
  else .ok (graph.insert target.1 target.2)

/-- A search from each target, in order of declaration (an insert puts its key first). -/
def checkTargetCycles (graph : BuildGraph) : Except BuildError Unit :=
  graph.keys.reverse.forM fun id =>
    (visit graph.edgesOf cycleThrough (graph.keys.length + 1) [] [] id).map fun _ => ()

def fromManifests (manifests : List BuildManifest) : Except BuildError BuildGraph := do
  let graph ← (manifests.flatMap (·.targets)).foldlM addTarget ∅
  graph.checkTargetCycles
  return graph

variable {graph : BuildGraph} {id : String}

theorem foldlM_addTarget {targets : List (String × BuildTarget)} (hdistinct : (targets.map (·.1)).Nodup)
    {start : BuildGraph} (hnew : ∀ target ∈ targets, target.1 ∉ start) : ∃ graph,
      targets.foldlM addTarget start = .ok graph ∧
        ∀ id target, graph.lookup id = some target ↔ start.lookup id = some target ∨ (id, target) ∈ targets := by
  induction targets generalizing start with
  | nil => exact ⟨start, rfl, by simp⟩
  | cons first targets ih =>
    obtain ⟨hfirst, hrest⟩ := nodup_cons.mp hdistinct
    have hstart := hnew first mem_cons_self
    have hnew' : ∀ target ∈ targets, target.1 ∉ start.insert first.1 first.2 := by
      intro target htarget hmem
      rcases (AList.mem_insert start).mp hmem with heq | hmem
      · exact hfirst (mem_map.mpr ⟨target, htarget, heq⟩)
      · exact hnew target (mem_cons_of_mem _ htarget) hmem
    obtain ⟨graph, hgraph, hlookup⟩ := ih hrest hnew'
    refine ⟨graph, foldlM_cons_eq_ok.mpr ⟨_, if_neg hstart, hgraph⟩, fun id target => ?_⟩
    have hother : start.lookup id = some target → id ≠ first.1 := by
      rintro hsome rfl
      rw [AList.lookup_eq_none.mpr hstart] at hsome
      cases hsome
    rw [hlookup, lookup_insert_eq_some, mem_cons, Prod.ext_iff]
    tauto

theorem checkTargetCycles_eq_ok :
    graph.checkTargetCycles = .ok () ↔ ∀ id ∈ graph, ∃ order, graph.buildOrder id = .ok order := by
  refine forM_eq_ok.trans (forall_congr' fun id => ?_)
  rw [mem_reverse]
  refine forall_congr' fun hid => ?_
  obtain ⟨target, htarget⟩ := Option.isSome_iff_exists.mp (AList.lookup_isSome.mpr hid)
  simp only [buildOrder, htarget]

/-- The target and what it depends on, the target last. -/
theorem buildOrder_lists {order : List String} (h : graph.buildOrder id = .ok order) :
    (∀ x, x ∈ order ↔ x = id ∨ graph.DependsOn id x) ∧ order.getLast? = some id := by
  have hmem : ∀ x, x = id ∨ graph.DependsOn id x → x ∈ order := fun x => mem_buildOrder h
  unfold buildOrder at h
  split at h
  · cases h
  refine ⟨fun x => ⟨fun hx => ?_, hmem x⟩, ?_⟩
  · have hclosed : ∀ v d, v = id ∨ graph.DependsOn id v → Names graph.edgesOf v d → d = id ∨ graph.DependsOn id d := by
      rintro v d (rfl | hv) hnames
      · exact .inr (.single hnames)
      · exact .inr (hv.tail hnames)
    exact visit_within hclosed (.inl rfl) (by simp) h x hx
  · rcases visit_eq_ok h with ⟨hnil, -⟩ | ⟨-, -, _, _, mid, -, -, -, rfl⟩
    · cases hnil
    · exact getLast?_concat

theorem mem_of_dependsOn {d : String} (h : graph.DependsOn id d) : id ∈ graph := by
  obtain ⟨_, ⟨deps, hdeps, hd⟩, -⟩ := Relation.TransGen.head'_iff.mp h
  by_contra hid
  rw [edgesOf, AList.lookup_eq_none.mpr hid] at hdeps
  cases hdeps
  exact absurd hd not_mem_nil

theorem edgesOf_eq_error {e : BuildError} :
    graph.edgesOf id = .error e ↔ ∃ target, graph.lookup id = some target ∧ target.config = some (.group (.error e)) := by
  unfold edgesOf
  split
  · next hlookup => simp [hlookup]
  · next target hlookup =>
    unfold targetEdges
    split <;> simp_all

theorem orders_iff : (∀ id ∈ graph, ∃ order, graph.buildOrder id = .ok order) ↔ ¬ ((∃ id, graph.DependsOn id id) ∨
    ∃ id target e, graph.lookup id = some target ∧ target.config = some (.group (.error e))) := by
  constructor
  · intro horders
    have hread : ∀ id ∈ graph, (∃ deps, graph.edgesOf id = .ok deps) ∧ ¬ graph.DependsOn id id := by
      intro id hid
      obtain ⟨order, horder⟩ := horders id hid
      obtain ⟨hordered, hnodup, hmem⟩ := buildOrder_spec horder
      obtain ⟨before, after, rfl⟩ := append_of_mem hmem
      refine ⟨(hordered before id after rfl).1, fun hcycle => ?_⟩
      exact (nodup_append.mp hnodup).2.2 id (hordered.path rfl hcycle) id mem_cons_self rfl
    rintro (⟨id, hcycle⟩ | ⟨id, target, e, hlookup, hgroup⟩)
    · exact (hread id (mem_of_dependsOn hcycle)).2 hcycle
    · have hid : id ∈ graph := AList.lookup_isSome.mp (by rw [hlookup]; rfl)
      obtain ⟨deps, hdeps⟩ := (hread id hid).1
      cases (edgesOf_eq_error.mpr ⟨target, hlookup, hgroup⟩).symm.trans hdeps
  · intro hneither id hid
    refine buildOrder_of_acyclic (fun id => ?_) (fun id hcycle => hneither (.inl ⟨id, hcycle⟩)) hid
    cases hedges : graph.edgesOf id with
    | ok deps => exact ⟨deps, rfl⟩
    | error e =>
      obtain ⟨target, hlookup, hgroup⟩ := edgesOf_eq_error.mp hedges
      exact absurd (.inr ⟨id, target, e, hlookup, hgroup⟩) hneither

/-- For manifests whose target ids are distinct, the graph of their targets is refused exactly when a target depends on
    itself or the member ids of a group cannot be read. Otherwise the build order of a target is the target and all it
    depends on, each once, after what it depends on, and the target last. -/
theorem target_build_order (manifests : List BuildManifest)
    (hdistinct : ((manifests.flatMap (·.targets)).map (·.1)).Nodup) : ∃ graph : BuildGraph,
    (∀ id target, graph.lookup id = some target ↔ (id, target) ∈ manifests.flatMap (·.targets)) ∧
    ((∃ e, fromManifests manifests = .error e) ↔ (∃ id, graph.DependsOn id id) ∨
      ∃ id target e, graph.lookup id = some target ∧ target.config = some (.group (.error e))) ∧
    ∀ g, fromManifests manifests = .ok g → g = graph ∧ ∀ id ∈ graph, ∃ order, graph.buildOrder id = .ok order ∧
      order.Nodup ∧ (∀ x, x ∈ order ↔ x = id ∨ graph.DependsOn id x) ∧
      (∀ before x after, order = before ++ x :: after → ∀ d, graph.DependsOn x d → d ∈ before) ∧
      order.getLast? = some id := by
  have hnew : ∀ target ∈ manifests.flatMap (·.targets), target.1 ∉ (∅ : BuildGraph) :=
    fun target _ => AList.notMem_empty target.1
  obtain ⟨graph, hgraph, hlookup⟩ := foldlM_addTarget hdistinct hnew
  have hrun : fromManifests manifests = graph.checkTargetCycles >>= fun _ => .ok graph := by
    unfold fromManifests
    rw [hgraph]
    rfl
  refine ⟨graph, by simpa using hlookup, ?_, fun g hg => ?_⟩
  · rw [← not_iff_not, ← orders_iff, ← checkTargetCycles_eq_ok, hrun]
    cases graph.checkTargetCycles with
    | error e | ok => simp [bind, Except.bind]
  obtain ⟨_, hcheck, hg⟩ := bind_eq_ok.mp (hrun ▸ hg)
  cases hg
  refine ⟨rfl, fun id hid => ?_⟩
  obtain ⟨order, horder⟩ := checkTargetCycles_eq_ok.mp hcheck id hid
  obtain ⟨hordered, hnodup, -⟩ := buildOrder_spec horder
  obtain ⟨hlists, hlast⟩ := buildOrder_lists horder
  exact ⟨order, horder, hnodup, hlists, fun before x after hsplit d hd => hordered.path hsplit hd, hlast⟩

theorem an_app_is_built_after_its_library :
    let manifests := [⟨[("app", ⟨["lib", "std"], [], none⟩)]⟩, ⟨[("lib", ⟨["std"], [], none⟩)]⟩]
    (fromManifests manifests).isOk ∧ ∀ graph, fromManifests manifests = .ok graph →
      ∃ order, graph.buildOrder "app" = .ok order ∧ order.Nodup ∧ order.getLast? = some "app" := by
  intro manifests
  refine ⟨by decide +kernel, fun g hg => ?_⟩
  obtain ⟨graph, hlookup, -, hok⟩ := target_build_order manifests (by decide)
  obtain ⟨rfl, horders⟩ := hok g hg
  have happ : g.lookup "app" = some ⟨["lib", "std"], [], none⟩ := (hlookup _ _).mpr (by simp [manifests])
  obtain ⟨order, horder, hnodup, -, -, hlast⟩ := horders "app" (AList.lookup_isSome.mp (by rw [happ]; rfl))
  exact ⟨order, horder, hnodup, hlast⟩

/-- Nothing depends on itself, and the graph is refused for a group whose member ids cannot be read. -/
theorem an_unread_group_is_refused :
    let all : BuildTarget := ⟨[], [], some (.group (.error (.manifest "unknown field")))⟩
    let graph : BuildGraph := AList.singleton "all" all
    (fromManifests [⟨[("all", all)]⟩]).isOk = false ∧ ∀ id, ¬ graph.DependsOn id id := by
  intro all graph
  refine ⟨by decide +kernel, fun id hcycle => ?_⟩
  obtain rfl : id = "all" := mem_singleton.mp (mem_of_dependsOn hcycle)
  obtain ⟨d, ⟨deps, hdeps, -⟩, -⟩ := Relation.TransGen.head'_iff.mp hcycle
  cases hdeps

end BuildGraph

end TddyCoder.Build
