import BehaviorTree.Proofs.Precedence
import Mathlib.Data.List.Chain
import Mathlib.Data.List.Nodup

/-!
# Trails of references

The names of the definitions that are being entered at a site form a trail: each of them refers to
the next one, all of them are different, and the start leads to all of them. So what a build reports
about references is the case in the document. A reported cycle is a loop of references, with no name
twice, that the start leads to, and a reported unknown name is undefined and referred to.
-/

namespace BehaviorTree

variable {ω : Type}

namespace Spec

theorem mem_preorder_self (s : Spec) : s ∈ s.preorder := by
  rw [preorder_eq]
  exact List.mem_cons_self

theorem mem_preorder_of_mem_children {s t c : Spec} (hs : s ∈ t.preorder) (hc : c ∈ s.children) :
    c ∈ t.preorder := by
  induction t using childInduction with
  | _ t ih =>
    rw [preorder_eq, List.mem_cons, List.mem_flatMap] at hs ⊢
    right
    rcases hs with rfl | ⟨d, hd, hs⟩
    · exact ⟨c, hc, c.mem_preorder_self⟩
    · exact ⟨d, hd, ih d hd hs⟩

end Spec

namespace Document

/-- A way along references that ends where it begins and meets no name twice before. -/
structure Loop (d : Document) (start : String) (path : List String) : Prop where
  long : 2 ≤ path.length
  closed : path.head? = path.getLast?
  distinct : path.dropLast.Nodup
  defined : ∀ name ∈ path.dropLast, name ∈ d.trees
  linked : path.IsChain d.Refers
  reached : ∀ name ∈ path.head?, d.Reaches start name

theorem Loop.transGen {d : Document} {start name : String} {path : List String}
    (h : d.Loop start path) (hname : name ∈ path) : Relation.TransGen d.Refers name name := by
  obtain ⟨hlong, hclosed, -, -, hlinked, -⟩ := h
  match path with
  | first :: second :: rest =>
    have hback : (first :: second :: rest).getLast (List.cons_ne_nil _ _) = first := by
      rw [List.head?_cons, List.getLast?_eq_some_getLast (List.cons_ne_nil _ _)] at hclosed
      exact (Option.some.inj hclosed).symm
    have hto : ∀ other ∈ first :: second :: rest, Relation.ReflTransGen d.Refers first other :=
      hlinked.induction _ _ (fun _ _ hnext hway => hway.tail hnext) fun _ => .refl
    have hfrom : ∀ other ∈ first :: second :: rest, Relation.ReflTransGen d.Refers other first :=
      hlinked.backwards_cons_induction _ _ hback (fun _ _ hnext hway => hway.head hnext) .refl
    have hround : Relation.TransGen d.Refers first first :=
      .head' (List.isChain_cons_cons.mp hlinked).1 (hfrom second (by simp))
    -- On to the first name, once around, and back to where it began.
    exact (Relation.TransGen.trans_right (hfrom name hname) hround).trans_left (hto name hname)

def Mentions (d : Document) (start name : String) : Prop :=
  ∃ other, d.Reaches start other ∧ d.Refers other name

def Warrants (d : Document) (start : String) : BuildFault → Prop
  | .subtreeCycle path => d.Loop start path
  | .unknownTree name => name ∉ d.trees ∧ d.Mentions start name
  | _ => True

end Document

namespace Site

/-- The names that are being entered at the site are a trail from the start, and the site is a node
of the definition that the trail ends at. -/
structure OnTrail (d : Document) (start : String) (x : Site) : Prop where
  linked : x.entered.IsChain d.Refers
  distinct : x.entered.Nodup
  known : ∀ name ∈ x.entered, name ∈ d.trees ∧ d.Reaches start name
  inside : ∃ name spec, x.entered.getLast? = some name ∧ d.trees[name]? = some spec ∧
    x.spec ∈ spec.preorder

theorem onTrail_of_defined {d : Document} {start : String} {spec : Spec}
    (h : d.trees[start]? = some spec) : OnTrail d start ⟨[start], spec⟩ where
  linked := .singleton start
  distinct := List.nodup_singleton start
  known := by
    intro name hname
    obtain rfl := List.mem_singleton.mp hname
    exact ⟨Document.defined_of_getElem? h, .refl⟩
  inside := ⟨start, spec, rfl, h, spec.mem_preorder_self⟩

namespace OnTrail

variable {d : Document} {start : String} {x y : Site}

theorem refers (h : x.OnTrail d start) {tree : String} (htree : x.spec.reference? = some tree) :
    ∃ name, x.entered.getLast? = some name ∧ d.Refers name tree := by
  obtain ⟨name, spec, hname, hspec, hmem⟩ := h.inside
  exact ⟨name, hname, spec, hspec, x.spec, hmem, htree⟩

theorem linked_concat (h : x.OnTrail d start) {tree : String}
    (htree : x.spec.reference? = some tree) : (x.entered ++ [tree]).IsChain d.Refers := by
  obtain ⟨name, hname, hrefers⟩ := h.refers htree
  refine h.linked.append (.singleton tree) ?_
  intro last hlast next hnext
  obtain rfl := Option.some_inj.mp (hname.symm.trans hlast)
  obtain rfl := Option.some_inj.mp hnext
  exact hrefers

theorem mentions (h : x.OnTrail d start) {tree : String} (htree : x.spec.reference? = some tree) :
    d.Mentions start tree := by
  obtain ⟨name, hname, hrefers⟩ := h.refers htree
  exact ⟨name, (h.known name (List.mem_of_getLast? hname)).2, hrefers⟩

theorem enter (h : x.OnTrail d start) {tree : String} (htree : x.spec.reference? = some tree)
    (hfresh : tree ∉ x.entered) {spec : Spec} (hspec : d.trees[tree]? = some spec) :
    OnTrail d start ⟨x.entered ++ [tree], spec⟩ where
  linked := h.linked_concat htree
  distinct := List.nodup_append.mpr ⟨h.distinct, List.nodup_singleton tree, by
    rintro name hname _ hlast rfl
    exact hfresh (List.mem_singleton.mp hlast ▸ hname)⟩
  known := by
    intro name hname
    rcases List.mem_append.mp hname with hname | hname
    · exact h.known name hname
    · obtain rfl := List.mem_singleton.mp hname
      obtain ⟨other, hreaches, hrefers⟩ := h.mentions htree
      exact ⟨Document.defined_of_getElem? hspec, hreaches.tail hrefers⟩
  inside := ⟨tree, spec, List.getLast?_concat, hspec, spec.mem_preorder_self⟩

theorem child (h : x.OnTrail d start) {i : Nat} (hy : x.child? d i = some y) :
    y.OnTrail d start := by
  obtain ⟨entered, spec⟩ := x
  by_cases htree : ∃ tree, spec.reference? = some tree
  · obtain ⟨tree, htree⟩ := htree
    cases spec with
    | subtree scope report tree' name =>
      obtain rfl := Option.some_inj.mp htree
      rw [child?] at hy
      split at hy
      · next hopen =>
        obtain ⟨spec, hspec, rfl⟩ := Option.map_eq_some_iff.mp hy
        exact h.enter rfl hopen.2 hspec
      · cases hy
    | _ => cases htree
  · have hchild : child? d ⟨entered, spec⟩ i = spec.children[i]?.map (⟨entered, ·⟩) := by
      cases spec with
      | subtree => exact absurd ⟨_, rfl⟩ htree
      | _ => rfl
    rw [hchild] at hy
    obtain ⟨c, hc, rfl⟩ := Option.map_eq_some_iff.mp hy
    obtain ⟨name, top, hname, htop, hmem⟩ := h.inside
    exact ⟨h.linked, h.distinct, h.known, name, top, hname, htop,
      Spec.mem_preorder_of_mem_children hmem (List.mem_of_getElem? hc)⟩

theorem get (h : x.OnTrail d start) {place : Position} (hy : x.get? d place = some y) :
    y.OnTrail d start := by
  induction place generalizing x with
  | nil =>
    cases hy
    exact h
  | cons i place ih =>
    obtain ⟨z, hz, hy⟩ := Option.bind_eq_some_iff.mp hy
    exact ih (h.child hz) hy

/-- To meet a name of the trail again closes the end of the trail from that name on. -/
theorem loop (h : x.OnTrail d start) {tree : String} (htree : x.spec.reference? = some tree)
    (hentered : tree ∈ x.entered) :
    d.Loop start (x.entered.dropWhile (· ≠ tree) ++ [tree]) := by
  obtain ⟨before, rest, hsplit, hbefore⟩ := List.eq_append_cons_of_mem hentered
  have hdrop : x.entered.dropWhile (· ≠ tree) = tree :: rest := by
    rw [hsplit, List.dropWhile_append_of_pos, List.dropWhile_cons_of_neg]
    · simp
    · intro name hname
      simpa using ne_of_mem_of_not_mem hname hbefore
  have hsuffix : tree :: rest <:+ x.entered := ⟨before, hsplit.symm⟩
  rw [hdrop]
  constructor
  case long => simp
  case closed => rw [List.getLast?_concat, List.cons_append, List.head?_cons]
  case distinct =>
    rw [List.dropLast_concat]
    exact h.distinct.sublist hsuffix.sublist
  case defined =>
    intro name hname
    rw [List.dropLast_concat] at hname
    exact (h.known name (hsuffix.subset hname)).1
  case linked =>
    have hlinked := h.linked_concat htree
    rw [hsplit, List.append_assoc] at hlinked
    exact hlinked.right_of_append
  case reached =>
    intro name hname
    obtain rfl := Option.some_inj.mp hname
    exact (h.known _ hentered).2

theorem warrants_of_refusal? (h : x.OnTrail d start) {tree : String}
    (htree : x.spec.reference? = some tree) {fault : BuildFault}
    (hrefusal : d.refusal? x.entered tree = some fault) : d.Warrants start fault := by
  rcases Document.refusal?_cases hrefusal with ⟨hentered, rfl⟩ | ⟨-, hundefined, rfl⟩
  · exact h.loop htree hentered
  · exact ⟨hundefined, h.mentions htree⟩

theorem warrants_of_defect? (h : x.OnTrail d start) {fault : BuildFault}
    (hdefect : x.defect? d = some fault) : d.Warrants start fault := by
  obtain ⟨entered, spec⟩ := x
  cases spec with
  | subtree scope report tree name => exact h.warrants_of_refusal? rfl hdefect
  | decorator kind name child =>
    cases kind with
    | timer duration =>
      rw [defect?] at hdefect
      split at hdefect
      · cases hdefect
      · cases hdefect
        trivial
    | _ => cases hdefect
  | _ => cases hdefect

end OnTrail

end Site

theorem Document.warrants_of_unbound? {d : Document} {start : String} {r : Registry ω} {spec : Spec}
    {fault : BuildFault} (h : spec.unbound? r = some fault) : d.Warrants start fault := by
  cases spec with
  | leaf kind binding name =>
    cases kind
    all_goals
      rw [Spec.unbound?] at h
      split at h
      · cases h
      · cases h
        trivial
  | _ => cases h

namespace Builder

variable {B : Builder ω} {d : Document} {start : String} {fault : BuildFault}

theorem warrants_of_siteFault? {x : Site} (hx : x.OnTrail d start)
    (h : B.siteFault? d x = some fault) : d.Warrants start fault := by
  rw [siteFault?] at h
  split at h
  · rcases Option.or_eq_some_iff.mp h with hunbound | ⟨-, hdefect⟩
    · exact Document.warrants_of_unbound? hunbound
    · exact hx.warrants_of_defect? hdefect
  · exact hx.warrants_of_defect? h

theorem warrants_of_buildTree (hdefined : start ∈ d.trees)
    (h : (B.buildTree d start).result = .error fault) : d.Warrants start fault := by
  have hspec := Std.ExtTreeMap.getElem?_eq_some_getElem hdefined
  have hreports := reports_buildNamed (B := B)
    (Document.refusal?_eq_none_iff.mpr ⟨List.not_mem_nil, hdefined⟩) hspec []
  rw [buildTree] at h
  rw [h] at hreports
  obtain ⟨place, hfirst⟩ := hreports
  obtain ⟨x, hx, hfault⟩ := Option.bind_eq_some_iff.mp hfirst.here
  exact warrants_of_siteFault? ((Site.onTrail_of_defined hspec).get hx) hfault

theorem result_buildTree_of_undefined (hundefined : start ∉ d.trees) :
    (B.buildTree d start).result = .error (.unknownTree start) := by
  refine result_buildNamed_of_refused ?_ []
  rw [Document.refusal?, if_neg List.not_mem_nil, if_neg hundefined]

theorem result_build_of_undefined (hundefined : d.root ∉ d.trees) :
    (B.build d).result = .error (.unknownRoot d.root) := by
  have hroot : ¬ d.trees.contains d.root = true := hundefined
  rw [build, if_neg hroot]
  rfl

theorem build_eq_error_iff (hdefined : d.root ∈ d.trees) :
    (B.build d).result = .error fault ↔ (B.buildTree d d.root).result = .error fault := by
  have hroot : d.trees.contains d.root = true := hdefined
  rw [build, if_pos hroot, Build.result_bind, buildTree]
  cases (B.buildNamed d [] [] d.root).result with
  | ok node => exact iff_of_false nofun nofun
  | error fault' =>
    constructor
    all_goals
      intro h
      cases h
      rfl

theorem loop_of_buildTree {path : List String}
    (h : (B.buildTree d start).result = .error (.subtreeCycle path)) : d.Loop start path := by
  by_cases hdefined : start ∈ d.trees
  · exact warrants_of_buildTree hdefined h
  · rw [result_buildTree_of_undefined hdefined] at h
    cases h

theorem warrants_of_build (h : (B.build d).result = .error fault) : d.Warrants d.root fault := by
  by_cases hdefined : d.root ∈ d.trees
  · exact warrants_of_buildTree hdefined ((build_eq_error_iff hdefined).mp h)
  · rw [result_build_of_undefined hdefined] at h
    cases h
    trivial

/-- What builds report about references is the case in the document. -/
theorem reference_faults_warranted (B : Builder ω) (d : Document) :
    (∀ start path, (B.buildTree d start).result = .error (.subtreeCycle path) →
        d.Loop start path) ∧
      (∀ path, (B.build d).result = .error (.subtreeCycle path) → d.Loop d.root path) ∧
      (∀ start name, (B.buildTree d start).result = .error (.unknownTree name) →
        name ∉ d.trees ∧ (name = start ∨ d.Mentions start name)) ∧
      ∀ name, (B.build d).result = .error (.unknownTree name) →
        name ∉ d.trees ∧ d.Mentions d.root name := by
  refine ⟨?tree_cycle, ?root_cycle, ?tree_unknown, ?root_unknown⟩
  case tree_cycle =>
    intro start path h
    exact loop_of_buildTree h
  case root_cycle =>
    intro path h
    exact warrants_of_build h
  case tree_unknown =>
    intro start name h
    by_cases hdefined : start ∈ d.trees
    · obtain ⟨hundefined, hmentions⟩ := warrants_of_buildTree hdefined h
      exact ⟨hundefined, .inr hmentions⟩
    · rw [result_buildTree_of_undefined hdefined] at h
      cases h
      exact ⟨hdefined, .inl rfl⟩
  case root_unknown =>
    intro name h
    exact warrants_of_build h

def watchDocument (root : String) : Document where
  root := root
  trees := ((((∅ : Table Spec).insert "watch" (.composite .selector true none
      [.subtree .isolated .forward "walk" none])).insert
    "walk" (.decorator (.repeater 0) none (some (.subtree .shared .forward "turn" none)))).insert
    "turn" (.composite .sequence false none
      [.subtree .shared .forward "walk" none, .subtree .shared .forward "dream" none])).insert
    "doze" (.decorator .inverter none (some (.subtree .shared .forward "dream" none)))

theorem result_buildTree_watch (B : Builder ω) (root : String) :
    (B.buildTree (watchDocument root) "watch").result =
      .error (.subtreeCycle ["walk", "turn", "walk"]) := by
  have hwatch : (watchDocument root).trees["watch"]? = some (.composite .selector true none
      [.subtree .isolated .forward "walk" none]) := rfl
  have hwalk : (watchDocument root).trees["walk"]? =
      some (.decorator (.repeater 0) none (some (.subtree .shared .forward "turn" none))) := rfl
  have hturn : (watchDocument root).trees["turn"]? = some (.composite .sequence false none
      [.subtree .shared .forward "walk" none, .subtree .shared .forward "dream" none]) := rfl
  have hcycle := buildNamed_of_refused (B := B)
    (rfl : (watchDocument root).refusal? ["watch", "walk", "turn"] "walk" = _)
  rw [buildTree, buildNamed_of_accepted rfl hwatch]
  simp only [buildSpec, buildAll, List.nil_append]
  rw [buildNamed_of_accepted rfl hwalk]
  simp only [buildSpec, buildChild, decoratorOf, List.cons_append, List.nil_append]
  rw [buildNamed_of_accepted rfl hturn]
  simp only [buildSpec, buildAll, List.cons_append, List.nil_append, hcycle]
  rfl

theorem result_buildTree_doze (B : Builder ω) (root : String) :
    (B.buildTree (watchDocument root) "doze").result = .error (.unknownTree "dream") := by
  have hdoze : (watchDocument root).trees["doze"]? =
      some (.decorator .inverter none (some (.subtree .shared .forward "dream" none))) := rfl
  have hdream := buildNamed_of_refused (B := B)
    (rfl : (watchDocument root).refusal? ["doze"] "dream" = _)
  rw [buildTree, buildNamed_of_accepted rfl hdoze]
  simp only [buildSpec, buildChild, decoratorOf, List.nil_append, hdream]
  rfl

theorem reference_faults_warranted_watch :
    let B : Builder Unit := ⟨{}, .strict⟩
    let d := watchDocument "watch"
    let e := watchDocument "doze"
    ((B.buildTree d "watch").result = .error (.subtreeCycle ["walk", "turn", "walk"]) ∧
        (B.build d).result = .error (.subtreeCycle ["walk", "turn", "walk"]) ∧
          d.Loop "watch" ["walk", "turn", "walk"]) ∧
      ((B.buildTree e "dream").result = .error (.unknownTree "dream") ∧
        (B.build e).result = .error (.unknownTree "dream") ∧
          "dream" ∉ e.trees ∧ e.Mentions "doze" "dream") := by
  intro B d e
  obtain ⟨hcycle, hrootCycle, -, -⟩ := reference_faults_warranted B d
  obtain ⟨-, -, hunknown, hrootUnknown⟩ := reference_faults_warranted B e
  have hwatch : (B.buildTree d "watch").result = _ := result_buildTree_watch B "watch"
  have hbuild : (B.build d).result = _ := (build_eq_error_iff (by decide)).mpr hwatch
  have hdream : (B.buildTree e "dream").result = _ := result_buildTree_of_undefined (by decide)
  have hdoze : (B.build e).result = _ :=
    (build_eq_error_iff (by decide)).mpr (result_buildTree_doze B "doze")
  exact ⟨⟨hwatch, hbuild, hcycle _ _ hwatch⟩, hdream, hdoze, (hunknown _ _ hdream).1,
    (hrootUnknown _ hdoze).2⟩

end Builder

end BehaviorTree
