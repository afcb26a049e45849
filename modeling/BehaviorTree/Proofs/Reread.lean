import BehaviorTree.Yaml.Node
import BehaviorTree.Yaml.Presentation
import BehaviorTree.Yaml.Printer

/-!
# Printed nodes read again

If the text of a printed node parses to the tree that was printed, every scalar in the style in
which it was presented, then reading gives the node back but for these styles. There are no
aliases to follow, and nothing is cut off as long as the node is not nested too deeply.
-/

namespace BehaviorTree.Yaml

variable {ρ : Type}

def Properties.areTag (p : Properties ρ) (tag : Option String) : Bool :=
  p.anchor.isNone && p.tag = tag

theorem Properties.eq_of_areTag {p : Properties ρ} {tag : Option String}
    (h : p.areTag tag = true) : p = ⟨none, tag⟩ := by
  obtain ⟨anchor, tag'⟩ := p
  simpa [areTag] using h

namespace Node

mutual

def isWrittenAs : Node → Written ρ → Bool
  | scalar tag style text, .scalar p text' style' =>
    p.areTag tag && text' = text && style' = style.presenting text.toList
  | sequence tag items, .sequence p items' => p.areTag tag && areWrittenAs items items'
  | mapping tag entries, .mapping p entries' => p.areTag tag && entriesAreWrittenAs entries entries'
  | _, _ => false

def areWrittenAs : List Node → List (Written ρ) → Bool
  | [], [] => true
  | item :: items, item' :: items' => item.isWrittenAs item' && areWrittenAs items items'
  | _, _ => false

def entriesAreWrittenAs : List (Entry Node) → List (Written ρ × Written ρ) → Bool
  | [], [] => true
  | ⟨_, key, value⟩ :: entries, (key', value') :: entries' =>
    key.isWrittenAs key' && value.isWrittenAs value' && entriesAreWrittenAs entries entries'
  | _, _ => false

end

def text? : Node → Option String
  | scalar _ _ text => some text
  | _ => none

mutual

/-- What a reader sees of the node as printed. -/
def reread : Node → Node
  | scalar tag style text => scalar tag (style.presenting text.toList) text
  | sequence tag items => sequence tag (rereadAll items)
  | mapping tag entries => mapping tag (rereadEntries entries)
  | node => node

def rereadAll : List Node → List Node
  | [] => []
  | item :: items => item.reread :: rereadAll items

def rereadEntries : List (Entry Node) → List (Entry Node)
  | [] => []
  | ⟨_, key, value⟩ :: entries => ⟨key.text?, key.reread, value.reread⟩ :: rereadEntries entries

end

mutual

def depth : Node → Nat
  | sequence _ items => depthAll items + 1
  | mapping _ entries => depthEntries entries + 1
  | _ => 0

def depthAll : List Node → Nat
  | [] => 0
  | item :: items => max item.depth (depthAll items)

def depthEntries : List (Entry Node) → Nat
  | [] => 0
  | ⟨_, key, value⟩ :: entries => max (max key.depth value.depth) (depthEntries entries)

end

/-! ## Linking -/

mutual

theorem link_of_isWrittenAs : ∀ (n : Node) (s : Source) (l : Links), l.ended = false →
    n.isWrittenAs s = true → ∃ s' : Written Nat, link s l = (s', l) ∧ n.isWrittenAs s' = true
  | scalar tag style text, .scalar p text' style', l, _, h => by
    simp only [isWrittenAs, Bool.and_eq_true] at h
    obtain ⟨⟨hp, htext⟩, hstyle⟩ := h
    rw [Properties.eq_of_areTag hp]
    refine ⟨_, rfl, ?_⟩
    simp [isWrittenAs, Properties.areTag, *]
  | sequence tag items, .sequence p items', l, hl, h => by
    simp only [isWrittenAs, Bool.and_eq_true] at h
    obtain ⟨hp, hitems⟩ := h
    obtain ⟨linked, hlink, hlinked⟩ := linkItems_of_areWrittenAs items items' l hl hitems
    rw [Properties.eq_of_areTag hp]
    refine ⟨.sequence ⟨none, tag⟩ linked, by simp only [link, Links.note, hlink], ?_⟩
    simp [isWrittenAs, Properties.areTag, hlinked]
  | mapping tag entries, .mapping p entries', l, hl, h => by
    simp only [isWrittenAs, Bool.and_eq_true] at h
    obtain ⟨hp, hentries⟩ := h
    obtain ⟨linked, hlink, hlinked⟩ :=
      linkEntries_of_entriesAreWrittenAs entries entries' l hl hentries
    rw [Properties.eq_of_areTag hp]
    refine ⟨.mapping ⟨none, tag⟩ linked, by simp only [link, Links.note, hlink], ?_⟩
    simp [isWrittenAs, Properties.areTag, hlinked]

theorem linkItems_of_areWrittenAs : ∀ (ns : List Node) (ss : List Source) (l : Links),
    l.ended = false → areWrittenAs ns ss = true →
    ∃ ss' : List (Written Nat), linkItems ss l = (ss', l) ∧ areWrittenAs ns ss' = true
  | [], [], _, _, _ => ⟨[], rfl, rfl⟩
  | n :: ns, s :: ss, l, hl, h => by
    simp only [areWrittenAs, Bool.and_eq_true] at h
    obtain ⟨s', hlink, hs'⟩ := link_of_isWrittenAs n s l hl h.1
    obtain ⟨ss', hlinks, hss'⟩ := linkItems_of_areWrittenAs ns ss l hl h.2
    refine ⟨s' :: ss', by simp [linkItems, hlink, hl, hlinks], ?_⟩
    simp [areWrittenAs, hs', hss']

theorem linkEntries_of_entriesAreWrittenAs : ∀ (es : List (Entry Node))
    (ss : List (Source × Source)) (l : Links), l.ended = false → entriesAreWrittenAs es ss = true →
    ∃ ss' : List (Written Nat × Written Nat),
      linkEntries ss l = (ss', l) ∧ entriesAreWrittenAs es ss' = true
  | [], [], _, _, _ => ⟨[], rfl, rfl⟩
  | ⟨_, key, value⟩ :: es, (k, v) :: ss, l, hl, h => by
    simp only [entriesAreWrittenAs, Bool.and_eq_true] at h
    obtain ⟨⟨hkey, hvalue⟩, hes⟩ := h
    obtain ⟨k', hlinkKey, hk'⟩ := link_of_isWrittenAs key k l hl hkey
    obtain ⟨v', hlinkValue, hv'⟩ := link_of_isWrittenAs value v l hl hvalue
    obtain ⟨ss', hlinks, hss'⟩ := linkEntries_of_entriesAreWrittenAs es ss l hl hes
    refine ⟨(k', v') :: ss', by simp [linkEntries, hlinkKey, hlinkValue, hl, hlinks], ?_⟩
    simp [entriesAreWrittenAs, hk', hv', hss']

end

/-! ## Expanding -/

theorem labelOf_of_isWrittenAs {n : Node} {s : Written Nat} (h : n.isWrittenAs s = true) :
    labelOf s = n.text? := by
  cases n <;> cases s <;> simp_all [isWrittenAs, labelOf, text?]

theorem follow_of_isWrittenAs {n : Node} {s : Written Nat} (targets : Nat → Written Nat)
    (h : n.isWrittenAs s = true) : follow targets s = pure (some s) := by
  cases n <;> cases s <;> first | rfl | cases h

section

variable (targets : Nat → Written Nat)

mutual

theorem expand_of_isWrittenAs : ∀ (n : Node) (s : Written Nat) (limit : Nat),
    n.isWrittenAs s = true → n.depth ≤ limit → expand targets limit s = pure n.reread
  | scalar tag style text, .scalar p text' style', limit, h, _ => by
    have hfollow := follow_of_isWrittenAs targets h
    simp only [isWrittenAs, Bool.and_eq_true, decide_eq_true_eq] at h
    obtain ⟨⟨hp, rfl⟩, rfl⟩ := h
    rw [Properties.eq_of_areTag hp] at hfollow ⊢
    cases limit <;> rw [expand, hfollow, pure_bind] <;> rfl
  | sequence tag items, .sequence p items', limit + 1, h, hdepth => by
    rw [expand, follow_of_isWrittenAs targets h, pure_bind]
    simp only [isWrittenAs, Bool.and_eq_true] at h
    obtain ⟨hp, hitems⟩ := h
    rw [Properties.eq_of_areTag hp]
    have hdepths : depthAll items ≤ limit := Nat.le_of_succ_le_succ hdepth
    simp only [mapM_of_areWrittenAs items items' limit hitems hdepths, pure_bind, reread]
  | mapping tag entries, .mapping p entries', limit + 1, h, hdepth => by
    rw [expand, follow_of_isWrittenAs targets h, pure_bind]
    simp only [isWrittenAs, Bool.and_eq_true] at h
    obtain ⟨hp, hentries⟩ := h
    rw [Properties.eq_of_areTag hp]
    have hdepths : depthEntries entries ≤ limit := Nat.le_of_succ_le_succ hdepth
    simp only [mapM_of_entriesAreWrittenAs entries entries' limit hentries hdepths, pure_bind,
      reread]

theorem mapM_of_areWrittenAs : ∀ (ns : List Node) (ss : List (Written Nat)) (limit : Nat),
    areWrittenAs ns ss = true → depthAll ns ≤ limit →
    ss.mapM (expand targets limit) = pure (rereadAll ns)
  | [], [], _, _, _ => rfl
  | n :: ns, s :: ss, limit, h, hdepth => by
    simp only [areWrittenAs, Bool.and_eq_true] at h
    simp only [depthAll, Nat.max_le] at hdepth
    simp only [List.mapM_cons, expand_of_isWrittenAs n s limit h.1 hdepth.1,
      mapM_of_areWrittenAs ns ss limit h.2 hdepth.2, pure_bind, rereadAll]

theorem mapM_of_entriesAreWrittenAs : ∀ (es : List (Entry Node))
    (ss : List (Written Nat × Written Nat)) (limit : Nat), entriesAreWrittenAs es ss = true →
    depthEntries es ≤ limit →
    (ss.mapM fun (key, value) => do
      let expanded ← expand targets limit key
      return (⟨labelOf key, expanded, ← expand targets limit value⟩ : Entry Node)) =
      pure (rereadEntries es)
  | [], [], _, _, _ => rfl
  | ⟨_, key, value⟩ :: es, (k, v) :: ss, limit, h, hdepth => by
    simp only [entriesAreWrittenAs, Bool.and_eq_true] at h
    simp only [depthEntries, Nat.max_le] at hdepth
    simp only [List.mapM_cons, expand_of_isWrittenAs key k limit h.1.1 hdepth.1.1,
      expand_of_isWrittenAs value v limit h.1.2 hdepth.1.2, labelOf_of_isWrittenAs h.1.1,
      mapM_of_entriesAreWrittenAs es ss limit h.2 hdepth.2, pure_bind, rereadEntries]

end

end

theorem ofSource_of_isWrittenAs {n : Node} {s : Source} (h : n.isWrittenAs s = true)
    (hdepth : n.depth ≤ greatestDepth) : ofSource s = (n.reread, true) := by
  obtain ⟨s', hlink, hs'⟩ := link_of_isWrittenAs n s {} rfl h
  simp only [ofSource, hlink, expand_of_isWrittenAs _ n s' greatestDepth hs' hdepth]
  rfl

end Node

/-- Whether the printed text of a node parses to what was printed, and to nothing else. -/
def parsesBack (n : Node) : Bool :=
  let d := Source.document (tokens (write n))
  d.root.any n.isWrittenAs && d.sound && d.alone

theorem read_write {n : Node} (h : parsesBack n = true) (hdepth : n.depth ≤ Node.greatestDepth) :
    read (write n) = ⟨n.reread, true, true⟩ := by
  simp only [parsesBack, Bool.and_eq_true, Option.any_eq_true] at h
  obtain ⟨⟨⟨s, hroot, hs⟩, hsound⟩, halone⟩ := h
  simp only [read, hroot, Node.ofSource_of_isWrittenAs hs hdepth, hsound, halone, Bool.and_self]

end BehaviorTree.Yaml
