import Mathlib.Data.List.Pairwise
import Dataflow.Proofs.Cursor.Paths
import Dataflow.Proofs.Flow.Cuts

/-!
# The feeds of a grouping

Source normalization looks at the nearest tap on each way to a grouping. That finds the taps
that supply the grouping: a way leads through each of them, and on that way nothing nearer is
a tap. With one tap alone there is nothing to compare. So where nothing is cut for a grouping,
the taps that supply it can be read together. Where something ought to be cut but only
boundaries are left, two of the boundaries cannot be read together.

Results:

* `feeds_spec`: the feeds that are found;
* `compatible_iff`: which of them can be read together;
* `cutFor_spec`, `findCut_spec`: what is cut for one grouping, and for all of them.
-/
namespace Dataflow

open Dataflow.Graph Relation

variable {g : Graph} {rules : TapRules}

/-- Of the ids of a set, a relation holds in order if it holds of any two of them. -/
theorem IdSet.pairwise_iff {s : IdSet} {R : Nat → Nat → Prop} :
    s.toList.Pairwise R ↔ ∀ x ∈ s, ∀ y ∈ s, x < y → R x y := by
  constructor
  · intro h
    have hlt : s.toList.Pairwise fun x y => x < y → R x y := by
      refine h.imp ?_
      exact fun hxy _ => hxy
    have hgt : s.toList.Pairwise fun x y => y < x → R y x :=
      s.ascending.imp fun {_ _} hlt hgt => absurd hlt (Nat.lt_asymm hgt)
    exact hlt.forall_of_forall_of_flip (fun x _ hx => absurd hx (Nat.lt_irrefl x)) hgt
  · exact fun h => s.ascending.imp_of_mem fun hx hy hlt => h _ hx _ hy hlt

namespace SourceNormalization

open PathCursor

/-- Going back on a path from an element behind its last tap finds that tap. -/
theorem exists_nearestTap (h : g.Ordered) {G : ElementId} {path : List ElementId}
    (hchain : path.IsChain g.Leads) (hup : ∀ v ∈ path, ReflTransGen g.Leads v G) {i : Nat}
    {x : ElementId} (hi : path[i]? = some x) (hx : g.hasKind Kind.isTap x = true)
    (hlast : ∀ j c, i < j → path[j]? = some c → g.hasKind Kind.isTap c = false) {k : Nat}
    {c : ElementId} (hik : i < k) (hk : path[k]? = some c) {budget : Nat} (hbudget : k ≤ budget) :
    ∃ f, nearestTap ((along g (.upTo g G) path).view g) budget c = some f ∧ f.tap = x := by
  induction k generalizing c budget with
  | zero => exact absurd hik (Nat.not_lt_zero i)
  | succ k ih =>
    obtain ⟨budget, rfl⟩ : ∃ n, budget = n + 1 := ⟨budget - 1, by omega⟩
    obtain ⟨hlt, -⟩ := List.getElem?_eq_some_iff.1 hk
    obtain ⟨a, ha⟩ : ∃ a, path[k]? = some a :=
      ⟨_, List.getElem?_eq_getElem (Nat.lt_of_succ_lt hlt)⟩
    have hpred : ((along g (.upTo g G) path).view g).topology.predecessors c = .singleton a := by
      refine IdSet.ext_mem fun b => ?_
      rw [mem_predecessors_along h.agrees h.ends hchain hup, IdSet.mem_singleton, mem_hops]
      constructor
      · rintro ⟨k', hb, hc⟩
        have hkk : k + 1 = k' + 1 :=
          (List.getElem?_inj hlt (h.acyclic.nodup_of_isChain hchain)).1 (hk.trans hc.symm)
        rw [Nat.succ.inj hkk, hb] at ha
        exact Option.some.inj ha
      · rintro rfl
        exact ⟨k, ha, hk⟩
    unfold nearestTap
    rw [hpred]
    show ∃ f : Feed, (if g.hasKind Kind.isTap a = true then _ else _) = some f ∧ f.tap = x
    rcases Nat.lt_or_eq_of_le (Nat.le_of_lt_succ hik) with hlt' | rfl
    · rw [if_neg (by rw [hlast k a hlt' ha]; exact Bool.false_ne_true)]
      exact ih hlt' ha (Nat.le_of_succ_le_succ hbudget)
    · rw [hi] at ha
      cases ha
      rw [if_pos hx]
      exact ⟨_, rfl, rfl⟩

/-! ## Every way -/

theorem getElem?_length_of_getLast {a b : ElementId} {l : List ElementId}
    (h : (a :: l).getLast (List.cons_ne_nil a l) = b) : (a :: l)[l.length]? = some b := by
  rw [← h, List.getLast_eq_getElem]
  exact List.getElem?_eq_getElem _

section

variable (h : g.Rooted) {G r : ElementId} (hr : g.Unfed r) (hrG : ReflTransGen g.Leads r G)
include h hr hrG

/-- From where everything starts that leads to an element, a way leads through each tap that
supplies it, and meets no other tap behind that one. -/
theorem exists_way_through {x : ElementId} (hsup : g.Supplies x G) :
    ∃ l, (r :: l).IsChain g.Leads ∧ (r :: l).getLast (List.cons_ne_nil r l) = G ∧
      ∃ i, i ≤ l.length ∧ (r :: l)[i]? = some x ∧
        ∀ j c, i < j → (r :: l)[j]? = some c → g.hasKind Kind.isTap c = false := by
  have hrx : ReflTransGen g.Leads r x := by
    obtain ⟨r', hr', hr'x⟩ := h.acyclic.exists_root x
    have hxG : ReflTransGen g.Leads x G := ReflTransGen.mono (fun _ _ hac => hac.1) _ _ hsup
    rwa [h.root_unique r r' G hr hr' hrG (hr'x.trans hxG)]
  obtain ⟨l, hl, hlx⟩ := List.exists_isChain_cons_of_relationReflTransGen hrx
  obtain ⟨m, hm, hmG⟩ := List.exists_isChain_cons_of_relationReflTransGen hsup
  have hnotap : ∀ c ∈ m, g.hasKind Kind.isTap c = false := by
    intro c hc
    obtain ⟨j, hj, rfl⟩ := List.getElem_of_mem hc
    exact (List.isChain_iff_getElem.1 hm j (by simpa using hj)).2
  refine ⟨l ++ m, ?_, ?_, l.length, by simp, ?_, fun j c hj hc => ?_⟩
  · -- the two ways overlap in the tap
    have hl' := hl
    rw [← List.dropLast_append_getLast (List.cons_ne_nil r l), hlx] at hl'
    have hm' : ([x] ++ m).IsChain g.Leads := hm.imp fun _ _ hac => hac.1
    have := hl'.append_overlap hm' (List.cons_ne_nil x [])
    rw [← hlx, List.dropLast_append_getLast] at this
    exact this
  · cases m with
    | nil =>
      rw [← hmG, ← hlx]
      simp
    | cons c rest =>
      rw [← hmG]
      simp
  · rw [← List.cons_append, List.getElem?_append_left (by simp)]
    exact getElem?_length_of_getLast hlx
  · rw [← List.cons_append, List.getElem?_append_right (Nat.succ_le_of_lt hj)] at hc
    exact hnotap c (List.mem_of_getElem? hc)

variable (hlive : g.contains G = true)
include hlive

/-- Every tap that supplies an element which is no tap is the nearest one on a way to it. -/
theorem exists_feed (hG : g.hasKind Kind.isTap G = false) {x : ElementId}
    (hx : g.hasKind Kind.isTap x = true) (hsup : g.Supplies x G) : ∃ path ∈ waysTo g r G,
      ∃ f, nearestTap (path.view g) (g.size + 1) G = some f ∧ f.tap = x := by
  obtain ⟨l, hchain, hlast, i, hi, hat, hbehind⟩ := exists_way_through h hr hrG hsup
  have hend := getElem?_length_of_getLast hlast
  have hpath := Selection.mem_paths_upTo h.toOrdered hlive hchain hlast
  have hup := Selection.leads_of_mem_paths_upTo h.toOrdered hlive hpath
  have hlt : i < l.length := by
    refine Nat.lt_of_le_of_ne hi ?_
    rintro rfl
    rw [hend, Option.some.injEq] at hat
    rw [← hat, hG] at hx
    cases hx
  have hsize : l.length + 1 ≤ g.size :=
    length_le_of_nodup_of_lt (h.acyclic.nodup_of_isChain hchain) fun v hv => by
      rcases (hup v hv).cases_head with rfl | ⟨b, hb, -⟩
      · exact lt_size_of_contains hlive
      · exact (h.agrees.lt_size_of_leads hb).1
  exact ⟨_, List.mem_map.2 ⟨_, hpath, rfl⟩,
    exists_nearestTap h.toOrdered hchain hup hat hx hbehind hlt hend (by omega)⟩

theorem feeds_eq : feeds g G = .ok (if (waysTo g r G).length < 2 then []
    else (waysTo g r G).filterMap fun path => nearestTap (path.view g) (g.size + 1) G) := by
  simp only [feeds, drain_upTo h hlive hr hrG]
  split <;> rfl

end

theorem eq_of_length_lt_two {α : Type} {l : List α} {a b : α} (h : l.length < 2) (ha : a ∈ l)
    (hb : b ∈ l) : a = b := by
  obtain ⟨i, hi, rfl⟩ := List.getElem_of_mem ha
  obtain ⟨j, hj, rfl⟩ := List.getElem_of_mem hb
  have hij : i = j := by omega
  subst hij
  rfl

/-- All feeds that are found feed the grouping. Of two taps that supply it both are found. -/
theorem feeds_spec (h : g.Rooted) {G : ElementId} (hG : g.hasKind Kind.isGrouping G = true) :
    ∃ fs, feeds g G = .ok fs ∧ (∀ f ∈ fs, IsFeed g G f) ∧
      ∀ x y, x ≠ y → g.hasKind Kind.isTap x = true → g.hasKind Kind.isTap y = true →
        g.Supplies x G → g.Supplies y G → x ∈ fs.map Feed.tap ∧ y ∈ fs.map Feed.tap := by
  have hlive := contains_of_hasKind hG
  have htap := hasKind_eq_false (fun _ => Kind.isTap_of_isGrouping) hG
  obtain ⟨r, hr, hrG⟩ := h.acyclic.exists_root G
  have hfs := feeds_eq h hr hrG hlive
  refine ⟨_, hfs, fun f => isFeed_of_mem_feeds h.agrees htap hfs, fun x y hne hx hy hxG hyG => ?_⟩
  obtain ⟨p, hp, f, hf, rfl⟩ := exists_feed h hr hrG hlive htap hx hxG
  obtain ⟨q, hq, f', hf', rfl⟩ := exists_feed h hr hrG hlive htap hy hyG
  have htwo : ¬ (waysTo g r G).length < 2 := by
    intro hone
    rw [eq_of_length_lt_two hone hp hq, hf'] at hf
    cases hf
    exact hne rfl
  rw [if_neg htwo]
  exact ⟨List.mem_map_of_mem (List.mem_filterMap.2 ⟨p, hp, hf⟩),
    List.mem_map_of_mem (List.mem_filterMap.2 ⟨q, hq, hf'⟩)⟩

/-! ## Which feeds can be read together -/

theorem allCompatible_iff {l : List Tap} :
    allCompatible rules l = true ↔ l.Pairwise fun a b => rules.compatible a b = true := by
  induction l with
  | nil => simp [allCompatible]
  | cons a rest ih => simp [allCompatible, ih]

/-- Taps that can be read together. -/
def Agree (rules : TapRules) (g : Graph) (x y : ElementId) : Prop :=
  ∀ a b, tapOf g x = some a → tapOf g y = some b → rules.compatible a b = true

/-- Feeds are compatible exactly if any two taps among them can be read together. -/
theorem compatible_iff {fs : List Feed} : compatible rules g fs = true ↔
    ∀ x ∈ fs.map Feed.tap, ∀ y ∈ fs.map Feed.tap, x < y → Agree rules g x y := by
  have hpair : compatible rules g fs = true ↔
      (IdSet.ofList (fs.map Feed.tap)).toList.Pairwise (Agree rules g) := by
    rw [compatible, allCompatible_iff, List.pairwise_filterMap]
    exact List.Pairwise.iff fun x y =>
      ⟨fun h a b ha hb => h a ha b hb, fun h a ha b hb => h a b ha hb⟩
  rw [hpair, IdSet.pairwise_iff]
  simp only [IdSet.mem_ofList]

/-! ## What is cut -/

/-- Any two taps that supply `G` can be read together. -/
def Matched (rules : TapRules) (g : Graph) (G : ElementId) : Prop :=
  ∀ x y, x < y → g.Supplies x G → g.Supplies y G → Agree rules g x y

/-- Two boundaries that supply `G` cannot be read together. -/
def Stuck (rules : TapRules) (g : Graph) (G : ElementId) : Prop :=
  ∃ x y, x < y ∧ g.hasKind Kind.isBoundary x = true ∧ g.hasKind Kind.isBoundary y = true ∧
    g.Supplies x G ∧ g.Supplies y G ∧ ¬ Agree rules g x y

/-- Where no feed can be cut, all feeds are boundaries. -/
theorem isBoundary_of_cutWhere (h : g.Agrees) {G : ElementId} {fs : List Feed}
    (hfs : ∀ f ∈ fs, IsFeed g G f) (hnone : (cutWhere g fs fun _ => true).isEmpty = true)
    {x : ElementId} (hx : x ∈ fs.map Feed.tap) : g.hasKind Kind.isBoundary x = true := by
  obtain ⟨f, hf, rfl⟩ := List.mem_map.1 hx
  by_contra hb
  obtain ⟨a, ha⟩ := exists_tapOf (hfs f hf).tap
  obtain ⟨s, hs⟩ := (hfs f hf).leads
  have hmem : s ∈ cutWhere g fs fun _ => true :=
    (mem_cutWhere h).2 ⟨f, hf, by simpa using hb, ⟨a, ha, rfl⟩, hs⟩
  rw [IdSet.isEmpty_iff.1 hnone] at hmem
  exact IdSet.not_mem_empty hmem

/-- What is decided for the groupings of `Gs`: nothing is cut only if the taps that supply each
of them can be read together, and it fails only if two boundaries that supply one of them cannot
be read together. -/
inductive Decides (rules : TapRules) (g : Graph) (Gs : ElementId → Prop) :
    Except PlanError (Option IdSet) → Prop
  | matched (hall : ∀ G, Gs G → Matched rules g G) : Decides rules g Gs (.ok none)
  | cut (cut : IdSet) : Decides rules g Gs (.ok (some cut))
  | stuck {G : ElementId} (hG : Gs G) (hstuck : Stuck rules g G) :
      Decides rules g Gs (.error (.incompatibleFeeds (g.nameOf G)))

theorem cutFor_spec (h : g.Rooted) (scheme : String) (rules : TapRules) {G : ElementId}
    (hG : g.hasKind Kind.isGrouping G = true) :
    Decides rules g (· = G) (cutFor scheme rules g G) := by
  obtain ⟨fs, hfs, hfeed, hall⟩ := feeds_spec h hG
  unfold cutFor
  rw [hfs]
  show Decides rules g (· = G) (ite _ _ _)
  by_cases hdone : fs.length < 2 ∨ compatible rules g fs = true
  · rw [if_pos hdone]
    refine .matched ?_
    rintro _ rfl x y hlt hx hy a b ha hb
    obtain ⟨hxm, hym⟩ :=
      hall x y (Nat.ne_of_lt hlt) (isTap_of_tapOf ha) (isTap_of_tapOf hb) hx hy
    rcases hdone with hfew | hcomp
    · have hlen : (fs.map Feed.tap).length < 2 := by rwa [List.length_map]
      exact absurd (eq_of_length_lt_two hlen hxm hym) (Nat.ne_of_lt hlt)
    · exact compatible_iff.1 hcomp x hxm y hym hlt a b ha hb
  rw [if_neg hdone]
  dsimp only
  split
  · -- the second cut picks every feed that is no boundary
    split
    · next hnone =>
      have hb : ∀ {x}, x ∈ fs.map Feed.tap → g.hasKind Kind.isBoundary x = true :=
        isBoundary_of_cutWhere h.agrees hfeed hnone
      have hsup : ∀ {x}, x ∈ fs.map Feed.tap → g.Supplies x G := fun hx => by
        obtain ⟨f, hf, rfl⟩ := List.mem_map.1 hx
        exact (hfeed f hf).supplies
      refine .stuck rfl ?_
      by_contra hnot
      refine hdone (.inr (compatible_iff.2 fun x hx y hy hlt => ?_))
      by_contra hag
      exact hnot ⟨x, y, hlt, hb hx, hb hy, hsup hx, hsup hy, hag⟩
    · exact .cut _
  · exact .cut _

theorem cutAmong_spec (h : g.Rooted) (scheme : String) (rules : TapRules) {l : List ElementId}
    (hl : ∀ G ∈ l, g.hasKind Kind.isGrouping G = true) :
    Decides rules g (· ∈ l) (cutAmong scheme rules g l) := by
  induction l with
  | nil => exact .matched fun G hG => by cases hG
  | cons G rest ih =>
    have hfirst := cutFor_spec h scheme rules (hl G List.mem_cons_self)
    have hrest := ih fun G hG => hl G (List.mem_cons_of_mem _ hG)
    unfold cutAmong
    generalize cutFor scheme rules g G = found at hfirst
    cases hfirst with
    | matched hG =>
      generalize cutAmong scheme rules g rest = found at hrest
      cases hrest with
      | matched hall => exact .matched (List.forall_mem_cons.2 ⟨hG G rfl, hall⟩)
      | cut cut => exact .cut cut
      | stuck hG' hstuck => exact .stuck (List.mem_cons_of_mem _ hG') hstuck
    | cut cut => exact .cut cut
    | stuck hG hstuck => exact .stuck (hG ▸ List.mem_cons_self) hstuck

/-- What is decided for the whole graph. -/
theorem findCut_spec (h : g.Rooted) (scheme : String) (rules : TapRules) :
    Decides rules g (fun G => g.hasKind Kind.isGrouping G = true) (findCut scheme rules g) := by
  have hmem : (· ∈ g.elements.toList.filter (g.hasKind Kind.isGrouping)) =
      fun G => g.hasKind Kind.isGrouping G = true := funext fun G => propext <|
    List.mem_filter.trans (and_iff_right_of_imp fun hG => mem_elements.2 (contains_of_hasKind hG))
  rw [← hmem]
  exact cutAmong_spec h scheme rules fun G hG => (List.mem_filter.1 hG).2

end SourceNormalization
end Dataflow
