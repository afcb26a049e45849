import BehaviorTree.Proofs.Buildable
import Mathlib.Data.List.Lex

/-!
# Which fault a build reports

A document with several faults is refused for the first of them. What comes first is a matter of
the unfolded document, in which a reference has the definition that it refers to as its child: of
two positions the smaller one is met first. Each site there has at most one fault of its own,
whatever is below it.
-/

namespace BehaviorTree

variable {ω : Type}

/-- A node of a definition in the unfolded document, with the names of the definitions that are
being entered there, outermost first. -/
structure Site where
  entered : List String
  spec : Spec

def Document.refusal? (d : Document) (entered : List String) (name : String) : Option BuildFault :=
  if name ∈ entered then some (.subtreeCycle (entered.dropWhile (· ≠ name) ++ [name]))
  else if name ∈ d.trees then none
  else some (.unknownTree name)

theorem Document.refusal?_eq_none_iff {d : Document} {entered : List String} {name : String} :
    d.refusal? entered name = none ↔ name ∉ entered ∧ name ∈ d.trees := by
  rw [refusal?]
  split <;> simp_all

theorem Document.refusal?_cases {d : Document} {entered : List String} {name : String}
    {fault : BuildFault} (h : d.refusal? entered name = some fault) :
    (name ∈ entered ∧ fault = .subtreeCycle (entered.dropWhile (· ≠ name) ++ [name])) ∨
      name ∉ entered ∧ name ∉ d.trees ∧ fault = .unknownTree name := by
  rw [refusal?] at h
  split at h
  · next hentered =>
    cases h
    exact .inl ⟨hentered, rfl⟩
  · next hfresh =>
    split at h
    · cases h
    · next hundefined =>
      cases h
      exact .inr ⟨hfresh, hundefined, rfl⟩

def Spec.unbound? (r : Registry ω) : Spec → Option BuildFault
  | leaf .condition binding _ =>
    if r.has .condition binding then none else some (.unknownCondition binding)
  | leaf .action binding _ => if r.has .action binding then none else some (.unknownAction binding)
  | _ => none

namespace Site

/-- A definition is not entered again while it is being entered. -/
def child? (d : Document) : Site → Nat → Option Site
  | ⟨entered, .subtree _ _ tree _⟩, i =>
    if i = 0 ∧ tree ∉ entered then d.trees[tree]?.map (⟨entered ++ [tree], ·⟩) else none
  | ⟨entered, spec⟩, i => spec.children[i]?.map (⟨entered, ·⟩)

def get? (d : Document) : Site → Position → Option Site
  | x, [] => some x
  | x, i :: place => (x.child? d i).bind (·.get? d place)

def defect? (d : Document) : Site → Option BuildFault
  | ⟨_, .decorator (.timer duration) name _⟩ =>
    if isDuration duration then none else some (.invalidDuration (name.getD "Timer") duration)
  | ⟨entered, .subtree _ _ tree _⟩ => d.refusal? entered tree
  | _ => none

end Site

namespace Document

def site? (d : Document) (place : Position) : Option Site :=
  d.trees[d.root]?.bind fun spec => Site.get? d ⟨[d.root], spec⟩ place

/-- The defect at a position of the unfolded document; a missing root counts as one at the top. -/
def defectAt? (d : Document) (place : Position) : Option BuildFault :=
  if d.root ∈ d.trees then (d.site? place).bind (·.defect? d)
  else if place = [] then some (.unknownRoot d.root) else none

def unboundAt? (d : Document) (r : Registry ω) (place : Position) : Option BuildFault :=
  (d.site? place).bind (·.spec.unbound? r)

end Document

structure IsFirst (faults : Position → Option BuildFault) (place : Position) (fault : BuildFault) :
    Prop where
  here : faults place = some fault
  before : ∀ earlier < place, faults earlier = none

/-- The result is an error exactly when there are faults, and then it is the first of them. -/
def Reports {α : Type} (faults : Position → Option BuildFault) : Except BuildFault α → Prop
  | .ok _ => ∀ place, faults place = none
  | .error fault => ∃ place, IsFirst faults place fault

namespace Reports

variable {α β : Type} {faults : Position → Option BuildFault}

theorem of_top {fault : BuildFault} (h : faults [] = some fault) :
    Reports faults (.error fault : Except BuildFault α) :=
  ⟨[], h, fun earlier hlt => absurd hlt (List.not_lt_nil earlier)⟩

theorem bind {b : Build α} {f : α → Build β}
    (herror : ∀ fault, b.result = .error fault → ∃ place, IsFirst faults place fault)
    (hok : ∀ a, b.result = .ok a → Reports faults (f a).result) :
    Reports faults (b >>= f).result := by
  rw [Build.result_bind]
  cases hb : b.result with
  | error fault => exact herror fault hb
  | ok a => exact hok a hb

theorem bind_of_succeeds {b : Build α} {f : α → Build β} (hf : ∀ a, (f a).Succeeds)
    (h : Reports faults b.result) : Reports faults (b >>= f).result := by
  refine bind ?_ ?_
  · intro fault hb
    rwa [hb] at h
  · intro a hb
    obtain ⟨c, hc⟩ := hf a
    rw [hb] at h
    rwa [hc]

end Reports

def faultsOfAll {σ : Type} (faults : σ → Position → Option BuildFault) (parts : List σ) :
    Position → Option BuildFault
  | [] => none
  | i :: place => parts[i]?.bind (faults · place)

namespace IsFirst

variable {σ : Type} {faults : σ → Position → Option BuildFault} {x : σ} {xs : List σ}
  {place : Position} {fault : BuildFault}

theorem head (h : IsFirst (faults x) place fault) :
    IsFirst (faultsOfAll faults (x :: xs)) (0 :: place) fault := by
  refine ⟨h.here, ?_⟩
  rintro (_ | ⟨i, earlier⟩) hlt
  · rfl
  · rcases List.cons_lt_cons_iff.mp hlt with hi | ⟨rfl, hearlier⟩
    · omega
    · exact h.before earlier hearlier

theorem tail (hx : ∀ place, faults x place = none)
    (h : IsFirst (faultsOfAll faults xs) place fault) :
    ∃ place, IsFirst (faultsOfAll faults (x :: xs)) place fault := by
  cases place with
  | nil => cases h.here
  | cons i place =>
    refine ⟨(i + 1) :: place, h.here, ?_⟩
    rintro (_ | ⟨_ | j, earlier⟩) hlt
    · rfl
    · exact hx earlier
    · refine h.before (j :: earlier) ?_
      rcases List.cons_lt_cons_iff.mp hlt with hj | ⟨hj, hearlier⟩
      · exact List.cons_lt_cons_iff.mpr (.inl (by omega))
      · exact List.cons_lt_cons_iff.mpr (.inr ⟨by omega, hearlier⟩)

variable {f g : Position → Option BuildFault} {place' : Position} {fault' : BuildFault}

theorem of_or (h : IsFirst (fun q => (f q).or (g q)) place fault) (hg : ∀ q ≤ place, g q = none) :
    IsFirst f place fault := by
  have hor : ∀ q ≤ place, (f q).or (g q) = f q := by
    intro q hq
    rw [hg q hq, Option.or_none]
  exact ⟨(hor place le_rfl).symm.trans h.here, fun q hq => (hor q hq.le).symm.trans (h.before q hq)⟩

/-- Faults of a second sort come to light only before the first one of the other sort. -/
theorem or_cases (h : IsFirst (fun q => (f q).or (g q)) place fault) (h' : IsFirst g place' fault')
    (hf : f place' = none) :
    fault = fault' ∧ (∀ earlier < place', f earlier = none) ∨
      place < place' ∧ IsFirst f place fault := by
  rcases lt_trichotomy place place' with hlt | rfl | hlt
  · right
    exact ⟨hlt, h.of_or fun q hq => h'.before q (lt_of_le_of_lt hq hlt)⟩
  · left
    constructor
    · have hhere := h.here
      rw [hf, Option.none_or, h'.here] at hhere
      exact (Option.some.inj hhere).symm
    · intro earlier hearlier
      exact (Option.or_eq_none_iff.mp (h.before earlier hearlier)).1
  · have hnone := (Option.or_eq_none_iff.mp (h.before place' hlt)).2
    rw [h'.here] at hnone
    cases hnone

end IsFirst

theorem Reports.single {σ α : Type} {faults : σ → Position → Option BuildFault} {x : σ}
    {result : Except BuildFault α} (h : Reports (faults x) result) :
    Reports (faultsOfAll faults [x]) result := by
  cases result with
  | error fault =>
    obtain ⟨place, hplace⟩ := h
    exact ⟨0 :: place, hplace.head⟩
  | ok a =>
    rintro (_ | ⟨_ | i, place⟩)
    · rfl
    · exact h place
    · rfl

namespace Builder

open Build

def siteFault? (B : Builder ω) (d : Document) (x : Site) : Option BuildFault :=
  match B.mode with
  | .strict => (x.spec.unbound? B.registry).or (x.defect? d)
  | .lenient => x.defect? d

def faults (B : Builder ω) (d : Document) (x : Site) (place : Position) : Option BuildFault :=
  (x.get? d place).bind (B.siteFault? d)

section

variable {B : Builder ω} {d : Document} {entered : List String}

theorem siteFault?_of_bound {x : Site} (h : x.spec.unbound? B.registry = none) :
    B.siteFault? d x = x.defect? d := by
  rw [siteFault?, h]
  cases B.mode <;> rfl

theorem faults_of_children {spec : Spec} (hspec : spec.reference? = none)
    (hhere : B.siteFault? d ⟨entered, spec⟩ = none) : B.faults d ⟨entered, spec⟩ =
      faultsOfAll (fun c => B.faults d ⟨entered, c⟩) spec.children := by
  funext place
  cases place with
  | nil => exact hhere
  | cons i place =>
    have hchild : Site.child? d ⟨entered, spec⟩ i = spec.children[i]?.map (⟨entered, ·⟩) := by
      cases spec with
      | subtree => cases hspec
      | _ => rfl
    rw [faults, Site.get?, hchild, faultsOfAll]
    cases spec.children[i]? <;> rfl

theorem faults_of_reference {scope : Scope} {report : Report} {tree : String} {name : Option String}
    {spec : Spec} (haccepted : d.refusal? entered tree = none)
    (hspec : d.trees[tree]? = some spec) :
    B.faults d ⟨entered, .subtree scope report tree name⟩ =
      faultsOfAll (B.faults d) [⟨entered ++ [tree], spec⟩] := by
  have hfresh : tree ∉ entered := (Document.refusal?_eq_none_iff.mp haccepted).1
  funext place
  cases place with
  | nil => exact (siteFault?_of_bound rfl).trans haccepted
  | cons i place =>
    rw [faults, Site.get?, Site.child?, faultsOfAll]
    cases i with
    | zero =>
      rw [if_pos ⟨rfl, hfresh⟩, hspec]
      rfl
    | succ i =>
      rw [if_neg (by omega)]
      rfl

theorem result_buildLeaf_of_fault {kind : LeafKind} {binding : String} {name : Option String}
    {fault : BuildFault} (h : B.siteFault? d ⟨entered, .leaf kind binding name⟩ = some fault)
    (place : Position) : (B.buildLeaf place kind binding name).result = .error fault := by
  cases hmode : B.mode with
  | lenient =>
    rw [siteFault?, hmode] at h
    cases h
  | strict =>
    have hunbound : (Spec.leaf kind binding name).unbound? B.registry = some fault := by
      rw [siteFault?, hmode] at h
      simpa [Site.defect?] using h
    cases kind with
    | condition =>
      obtain ⟨hfound, rfl⟩ :
          B.registry.condition? binding = none ∧ .unknownCondition binding = fault := by
        simpa [Spec.unbound?, Registry.has, Registry.condition?] using hunbound
      simp only [buildLeaf, hfound, missing, hmode]
      rfl
    | action =>
      obtain ⟨hfound, rfl⟩ :
          B.registry.action? binding place = none ∧ .unknownAction binding = fault := by
        simpa [Spec.unbound?, Registry.has, Registry.action?] using hunbound
      simp only [buildLeaf, hfound, missing, hmode]
      rfl

theorem siteFault?_leaf_eq_none_iff {kind : LeafKind} {binding : String} {name : Option String} :
    B.siteFault? d ⟨entered, .leaf kind binding name⟩ = none ↔
      (B.mode = .strict → B.registry.has kind binding = true) := by
  cases hmode : B.mode <;> cases kind <;> simp [siteFault?, hmode, Spec.unbound?, Site.defect?]

theorem reports_buildLeaf (place : Position) (kind : LeafKind) (binding : String)
    (name : Option String) : Reports (B.faults d ⟨entered, .leaf kind binding name⟩)
      (B.buildLeaf place kind binding name).result := by
  cases hfault : B.siteFault? d ⟨entered, .leaf kind binding name⟩ with
  | some fault =>
    rw [result_buildLeaf_of_fault hfault place]
    exact Reports.of_top hfault
  | none =>
    obtain ⟨n, hn⟩ := (succeeds_buildLeaf B place kind binding name).mpr
      (siteFault?_leaf_eq_none_iff.mp hfault)
    rw [faults_of_children rfl hfault, hn]
    rintro (_ | ⟨i, rest⟩) <;> rfl

theorem defect?_decorator (kind : DecoratorSpec) (name : Option String) (child : Option Spec) :
    Site.defect? d ⟨entered, .decorator kind name child⟩ =
      match (decoratorOf name kind).result with
      | .error fault => some fault
      | .ok _ => none := by
  cases kind with
  | timer duration =>
    rw [Site.defect?, decoratorOf]
    split <;> rfl
  | _ => rfl

variable {embed : String → Position → Build (Node ω)}

theorem reports_buildAll {F : Spec → Position → Option BuildFault} {specs : List Spec}
    (h : ∀ s ∈ specs, ∀ place, Reports (F s) (buildSpec B embed place s).result) (place : Position)
    (index : Nat) : Reports (faultsOfAll F specs) (buildAll B embed place index specs).result := by
  induction specs generalizing index with
  | nil =>
    rintro (_ | ⟨i, rest⟩) <;> rfl
  | cons s specs ih =>
    obtain ⟨hs, hspecs⟩ := List.forall_mem_cons.mp h
    have hs := hs (place ++ [index])
    have hrest := ih hspecs (index + 1)
    rw [buildAll]
    refine Reports.bind ?_ ?_
    · intro fault hfault
      rw [hfault] at hs
      obtain ⟨first, hfirst⟩ := hs
      exact ⟨0 :: first, hfirst.head⟩
    · intro node hnode
      rw [hnode] at hs
      refine Reports.bind ?_ ?_
      · intro fault hfault
        rw [hfault] at hrest
        obtain ⟨first, hfirst⟩ := hrest
        exact hfirst.tail hs
      · intro nodes hnodes
        rw [hnodes] at hrest
        rintro (_ | ⟨_ | i, rest⟩)
        · rfl
        · exact hs rest
        · exact hrest (i :: rest)

theorem reports_buildChild {F : Spec → Position → Option BuildFault} {child : Option Spec}
    (h : ∀ s ∈ child, ∀ place, Reports (F s) (buildSpec B embed place s).result)
    (place : Position) :
    Reports (faultsOfAll F child.toList) (buildChild B embed place child).result := by
  cases child with
  | none =>
    rintro (_ | ⟨i, rest⟩) <;> rfl
  | some s =>
    rw [buildChild]
    exact Reports.bind_of_succeeds (fun _ => succeeds_pure _) (h s rfl (place ++ [0])).single

theorem reports_buildSpec
    (hrefused : ∀ tree place fault, d.refusal? entered tree = some fault →
      (embed tree place).result = .error fault)
    (haccepted : ∀ tree place spec, d.refusal? entered tree = none → d.trees[tree]? = some spec →
      Reports (B.faults d ⟨entered ++ [tree], spec⟩) (embed tree place).result)
    (spec : Spec) (place : Position) :
    Reports (B.faults d ⟨entered, spec⟩) (buildSpec B embed place spec).result := by
  induction spec using Spec.childInduction generalizing place with
  | _ spec ih =>
    cases spec with
    | leaf kind binding name =>
      rw [buildSpec]
      exact reports_buildLeaf place kind binding name
    | decorator kind name child =>
      have hhere : B.siteFault? d ⟨entered, .decorator kind name child⟩ = _ :=
        (siteFault?_of_bound rfl).trans (defect?_decorator kind name child)
      rw [buildSpec]
      refine Reports.bind ?_ ?_
      · intro fault hfault
        rw [hfault] at hhere
        exact Reports.of_top (α := Node ω) hhere
      · intro k hk
        rw [hk] at hhere
        rw [faults_of_children rfl hhere]
        refine Reports.bind_of_succeeds (fun _ => succeeds_pure _) (reports_buildChild ?_ place)
        intro s hs
        exact ih s (by simpa [Spec.children] using hs)
    | composite order memory name children =>
      rw [buildSpec, faults_of_children rfl (siteFault?_of_bound rfl)]
      exact Reports.bind_of_succeeds (fun _ => succeeds_pure _) (reports_buildAll ih place 0)
    | parallel quorums name children =>
      rw [buildSpec, faults_of_children rfl (siteFault?_of_bound rfl)]
      exact Reports.bind_of_succeeds (fun _ => succeeds_pure _) (reports_buildAll ih place 0)
    | subtree scope report tree name =>
      rw [buildSpec]
      cases hrefusal : d.refusal? entered tree with
      | some fault =>
        rw [result_bind, hrefused tree (place ++ [0]) fault hrefusal]
        exact Reports.of_top ((siteFault?_of_bound rfl).trans hrefusal)
      | none =>
        have hdefined : tree ∈ d.trees := (Document.refusal?_eq_none_iff.mp hrefusal).2
        have hspec := Std.ExtTreeMap.getElem?_eq_some_getElem hdefined
        rw [faults_of_reference hrefusal hspec]
        exact Reports.bind_of_succeeds (fun root => ⟨_, rfl⟩)
          (haccepted tree (place ++ [0]) _ hrefusal hspec).single

end

theorem buildNamed_of_refused {B : Builder ω} {d : Document} {entered : List String}
    {name : String} {fault : BuildFault} (h : d.refusal? entered name = some fault)
    (place : Position) : B.buildNamed d entered place name = .fail fault := by
  rw [buildNamed]
  rcases Document.refusal?_cases h with ⟨hentered, rfl⟩ | ⟨hfresh, hundefined, rfl⟩
  · rw [dif_neg (not_not_intro hentered)]
  · rw [dif_pos hfresh, dif_neg hundefined]

theorem result_buildNamed_of_refused {B : Builder ω} {d : Document} {entered : List String}
    {name : String} {fault : BuildFault} (h : d.refusal? entered name = some fault)
    (place : Position) : (B.buildNamed d entered place name).result = .error fault := by
  rw [buildNamed_of_refused h]
  rfl

theorem buildNamed_of_accepted {B : Builder ω} {d : Document} {entered : List String}
    {name : String} {spec : Spec} (haccepted : d.refusal? entered name = none)
    (hspec : d.trees[name]? = some spec) (place : Position) :
    B.buildNamed d entered place name =
      B.buildSpec (fun tree place => B.buildNamed d (entered ++ [name]) place tree) place spec := by
  obtain ⟨hfresh, hdefined⟩ := Document.refusal?_eq_none_iff.mp haccepted
  rw [Std.ExtTreeMap.getElem?_eq_some_getElem hdefined] at hspec
  obtain rfl := Option.some.inj hspec
  rw [buildNamed, dif_pos hfresh, dif_pos hdefined]

theorem reports_buildNamed {B : Builder ω} {d : Document} {entered : List String} {name : String}
    {spec : Spec} (haccepted : d.refusal? entered name = none) (hspec : d.trees[name]? = some spec)
    (place : Position) : Reports (B.faults d ⟨entered ++ [name], spec⟩)
      (B.buildNamed d entered place name).result := by
  induction entered, place, name using buildNamed.induct d generalizing spec with
  | case1 entered place name hfresh hdefined ih =>
    rw [buildNamed_of_accepted haccepted hspec]
    -- The recursion of the builder goes from one definition to those it refers to; within the
    -- definition the induction is on its nodes.
    refine reports_buildSpec ?_ ?_ _ place
    · intro tree place fault hrefusal
      exact result_buildNamed_of_refused hrefusal place
    · intro tree place spec hrefusal hspec
      exact ih tree place hrefusal hspec
  | case2 entered place name hfresh hdefined =>
    exact absurd (Document.refusal?_eq_none_iff.mp haccepted).2 hdefined
  | case3 entered place name hentered =>
    exact absurd (Document.refusal?_eq_none_iff.mp haccepted).1 hentered

def faultAt? (B : Builder ω) (d : Document) (place : Position) : Option BuildFault :=
  match B.mode with
  | .strict => (d.unboundAt? B.registry place).or (d.defectAt? place)
  | .lenient => d.defectAt? place

theorem faultAt?_eq_faults (B : Builder ω) {d : Document} {spec : Spec}
    (hspec : d.trees[d.root]? = some spec) : B.faultAt? d = B.faults d ⟨[d.root], spec⟩ := by
  have hdefined : d.root ∈ d.trees := Document.defined_of_getElem? hspec
  have hsite : d.site? = Site.get? d ⟨[d.root], spec⟩ := by
    funext place
    rw [Document.site?, hspec]
    rfl
  funext place
  rw [faultAt?, Document.unboundAt?, Document.defectAt?, if_pos hdefined, hsite, faults]
  cases Site.get? d ⟨[d.root], spec⟩ place <;> cases hmode : B.mode <;> simp [siteFault?, hmode]

/-- A build fails exactly if it meets a fault, and with the first one that it meets. -/
theorem reports_build (B : Builder ω) (d : Document) :
    Reports (B.faultAt? d) (B.build d).result := by
  unfold build
  split
  · next hroot =>
    have hdefined : d.root ∈ d.trees := hroot
    have hspec := Std.ExtTreeMap.getElem?_eq_some_getElem hdefined
    rw [faultAt?_eq_faults B hspec]
    exact Reports.bind_of_succeeds (fun _ => succeeds_pure _)
      (reports_buildNamed (Document.refusal?_eq_none_iff.mpr ⟨by simp, hdefined⟩) hspec [])
  · next hundefined =>
    have hroot : d.root ∉ d.trees := hundefined
    refine Reports.of_top ?_
    rw [faultAt?, Document.unboundAt?, Document.defectAt?, if_neg hroot, if_pos rfl]
    cases B.mode <;> simp [Document.site?, hroot]

end Builder

end BehaviorTree
