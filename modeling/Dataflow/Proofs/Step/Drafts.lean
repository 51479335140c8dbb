import Dataflow.Proofs.Cursor.Coverage
import Dataflow.Proofs.Step.Regions

/-!
# The drafts of a graph

`Drafted g ds` says what the list of drafts amounts to: each is a region with the
taps next to it or a copy along one link, no two share a working element or are the
same copy, every link has its copy, and nothing but the extents is left out.

The cursors over the regions are run to their end, and what they give is what one search of the
contracted graph finds, and then what these matches leave.

Results:

* `collect_eq`, `list_eq`: the drafts, by a search in place of the cursors;
* `drafted_of_list`: the drafts that are found are as described.
-/
namespace Dataflow

open Dataflow.Graph Relation

variable {g : Graph}

namespace Draft

/-- `d` is the copy along a scope between two taps. -/
def IsCopy (g : Graph) (d : Draft) : Prop :=
  ∃ a b, g.hasKind Kind.isTap a = true ∧ g.hasKind Kind.isTap b = true ∧ g.Leads a b ∧
    d = ofLink a b

/-- What the drafts of a graph amount to. -/
structure Drafted (g : Graph) (ds : List Draft) : Prop where
  each : ∀ d ∈ ds, (∃ r, d.IsRegion g r) ∨ d.IsCopy g
  /-- No two regions share an element, and no copy is listed twice. -/
  apart : ds.Pairwise fun d d' => d ≠ d' ∧ ∀ e ∈ d.region, e ∉ d'.region
  copied : ∀ a b, g.hasKind Kind.isTap a = true → g.hasKind Kind.isTap b = true →
    g.Leads a b → ofLink a b ∈ ds
  placed : ∀ e, g.contains e = true → isExtent e = false → ∃ d ∈ ds, e ∈ d.elements

theorem IsCopy.region_eq {d : Draft} (hd : d.IsCopy g) : d.region = ∅ := by
  obtain ⟨a, b, -, -, -, rfl⟩ := hd
  rfl

theorem IsRegion.ne_of_isCopy {r : ElementId} {d d' : Draft} (hd : d.IsRegion g r)
    (hd' : d'.IsCopy g) : d ≠ d' := by
  rintro rfl
  have hr := hd.self_mem
  rw [hd'.region_eq] at hr
  exact IdSet.not_mem_empty hr

theorem ofLink_injective {a b a' b' : ElementId} (h : ofLink a b = ofLink a' b') :
    a = a' ∧ b = b' := by
  have hs : [a] = [a'] := congrArg Draft.sources h
  have ht : [b] = [b'] := congrArg Draft.sinks h
  exact ⟨List.singleton_inj.1 hs, List.singleton_inj.1 ht⟩

/-! ## The copies -/

theorem mem_links (h : g.Agrees) {a b : ElementId} : (a, b) ∈ links g ↔
    g.hasKind Kind.isTap a = true ∧ g.hasKind Kind.isTap b = true ∧ g.Leads a b := by
  simp only [links, List.mem_flatMap, List.mem_filter, List.mem_map, Prod.mk.injEq]
  constructor
  · rintro ⟨a', ⟨-, ha⟩, b', ⟨hab, hb⟩, rfl, rfl⟩
    exact ⟨ha, hb, h.mem_successors.1 hab⟩
  · rintro ⟨ha, hb, hab⟩
    exact ⟨a, ⟨mem_elements.2 (contains_of_hasKind ha), ha⟩, b, ⟨h.mem_successors.2 hab, hb⟩,
      rfl, rfl⟩

theorem nodup_links : (links g).Nodup := by
  refine List.pairwise_flatMap.2 ⟨fun a _ => List.pairwise_map.2 ?_, ?_⟩
  · refine ((IdSet.nodup_toList _).filter _).imp fun hne heq => ?_
    exact hne (Prod.mk.inj heq).2
  · refine ((IdSet.nodup_toList g.elements).filter _).imp fun {a a'} hne => ?_
    rintro l hl l' hl' rfl
    obtain ⟨b, -, rfl⟩ := List.mem_map.1 hl
    obtain ⟨b', -, heq⟩ := List.mem_map.1 hl'
    exact hne (Prod.mk.inj heq).1.symm

theorem copies_eq {copied : List Draft} (h : copies g = .ok copied) :
    copied = (links g).map fun l => ofLink l.1 l.2 := by
  unfold copies at h
  split at h
  · cases h
  · cases h; rfl

theorem isCopy_of_mem_copies (h : g.Agrees) {copied : List Draft} (hc : copies g = .ok copied)
    {d : Draft} (hd : d ∈ copied) : d.IsCopy g := by
  rw [copies_eq hc] at hd
  obtain ⟨⟨a, b⟩, hl, rfl⟩ := List.mem_map.1 hd
  obtain ⟨ha, hb, hab⟩ := (mem_links h).1 hl
  exact ⟨a, b, ha, hb, hab, rfl⟩

theorem mem_copies (h : g.Agrees) {copied : List Draft} (hc : copies g = .ok copied)
    {a b : ElementId} (ha : g.hasKind Kind.isTap a = true) (hb : g.hasKind Kind.isTap b = true)
    (hab : g.Leads a b) : ofLink a b ∈ copied := by
  rw [copies_eq hc]
  exact List.mem_map.2 ⟨(a, b), (mem_links h).2 ⟨ha, hb, hab⟩, rfl⟩

theorem nodup_copies {copied : List Draft} (hc : copies g = .ok copied) : copied.Nodup := by
  rw [copies_eq hc]
  refine List.pairwise_map.2 (nodup_links.imp fun hne heq => ?_)
  obtain ⟨h1, h2⟩ := ofLink_injective heq
  exact hne (Prod.ext h1 h2)

/-! ## The regions -/

/-- The matches of the step motif, by region. -/
def regionMatches (g : Graph) : List Match :=
  regionMatcher.allMatches (contraction g).target ∅ false

/-- The draft of a match. -/
def ofMatch (g : Graph) (m : Match) : Draft :=
  ofRegion g ((contraction g).selection m.vertices).elements ((contraction g).expand m.primary)

theorem mem_anchors (h : g.Agrees) {r : ElementId} :
    r ∈ regionMatcher.anchors (contraction g).target ∅ ↔
      (contraction g).representative? r = some r ∧ g.Works r := by
  have hv : r ∈ (contraction g).target.vertices.toList ↔
      (contraction g).representative? r = some r := Contraction.mem_vertices
  have hdisj : ((contraction g).target.members r).disjoint ∅ = true :=
    IdSet.disjoint_iff.2 fun _ _ => IdSet.not_mem_empty
  unfold Matcher.anchors
  rw [List.mem_filter, hv, hdisj, Bool.true_and]
  exact and_congr_right fun hr => holds_regionTest_contraction h hr

/-- Each match is found around one region. -/
theorem isRegion_of_mem_matches (h : g.Agrees) {m : Match} (hm : m ∈ regionMatches g) :
    ∃ r, IsRegion g r (ofMatch g m) := by
  obtain ⟨r, hr, hmt⟩ := List.mem_filterMap.1 hm
  obtain ⟨hrep, hw⟩ := (mem_anchors h).1 hr
  exact ⟨r, isRegion_of_matchAt? h hw hrep hmt⟩

/-- Regions found around different vertices have nothing in common. -/
theorem pairwise_matches (h : g.Agrees) :
    ((regionMatches g).map (ofMatch g)).Pairwise
      fun d d' => d ≠ d' ∧ ∀ e ∈ d.region, e ∉ d'.region := by
  have hnodup : (regionMatcher.anchors (contraction g).target ∅).Nodup :=
    (IdSet.nodup_toList _).filter _
  rw [regionMatches, Matcher.allMatches, List.pairwise_map, List.pairwise_filterMap]
  refine hnodup.imp_of_mem fun {r r'} hr hr' hne m hm m' hm' => ?_
  obtain ⟨hrep, hw⟩ := (mem_anchors h).1 hr
  obtain ⟨hrep', hw'⟩ := (mem_anchors h).1 hr'
  have hd := isRegion_of_matchAt? h hw hrep hm
  have hd' := isRegion_of_matchAt? h hw' hrep' hm'
  have hdisj : ∀ e ∈ (ofMatch g m).region, e ∉ (ofMatch g m').region := by
    intro e he he'
    have h1 := (representative?_iff h hrep).2 ((hd.region e).1 he)
    have h2 := (representative?_iff h hrep').2 ((hd'.region e).1 he')
    rw [h1] at h2
    exact hne (Option.some.inj h2)
  refine ⟨fun heq => ?_, hdisj⟩
  have hself := hd.self_mem
  change r ∈ (ofMatch g m).region at hself
  exact hdisj r hself (heq ▸ hself)

/-! ## The run of the cursors -/

/-- The parts that the matches claim. -/
def regionParts (g : Graph) : List Selection :=
  (regionMatches g).map fun m => (contraction g).selection m.vertices

/-- The elements that no region claims together with taps on both sides. -/
def unclaimed (g : Graph) (parts : List Selection) (multiEdge : Bool) : IdSet :=
  let mask : Selection := ⟨.unionOf parts Selection.elements, .unionOf parts Selection.scopes⟩
  (Remainder.compute g (.whole g) mask [] multiEdge).elim ∅ Selection.elements

section Loop

variable {drafts : List Draft} {left : IdSet}

theorem collect_of_spent {parts : RemainderCursor MotifCursor}
    (h : (Cursor.hasNext parts).1 = false) (budget : Nat) :
    collect g budget parts drafts left = .ok (drafts, left) := by
  cases budget with
  | zero => rfl
  | succ budget =>
    have hask : Cursor.hasNext parts = (false, (Cursor.hasNext parts).2) := Prod.ext h rfl
    rw [collect, hask]

theorem collect_of_next {parts after : RemainderCursor MotifCursor} {rest : Bool} {s : Selection}
    (hmore : (Cursor.hasNext parts).1 = true)
    (hrest : (Cursor.hasNext parts).2.atRemainder = (rest, (Cursor.hasNext parts).2))
    (hnext : Cursor.next parts = (.ok s, after)) (budget : Nat) :
    collect g (budget + 1) parts drafts left =
      if rest then collect g budget after drafts s.elements
      else collect g budget after
        (drafts ++ [ofRegion g s.elements (Cursor.captured after .primary)]) left := by
  have hask : Cursor.hasNext parts = (true, (Cursor.hasNext parts).2) := Prod.ext hmore rfl
  have hgive : Cursor.next (Cursor.hasNext parts).2 = (.ok s, after) :=
    (Cursor.Lawful.next_hasNext parts).trans hnext
  rw [collect, hask]
  dsimp only
  rw [hrest]
  dsimp only
  rw [hgive]

variable {c : MotifCursor} (hc : c.contraction = contraction g)
include hc

theorem deadScope?_of_contraction :
    c.contraction.view.graph.deadScope? c.contraction.view.mask.scopes = none := by
  rw [hc]
  exact Selection.deadScope?_whole g

/-- A match that is to come makes a draft. -/
theorem collect_match {m : Match} {ms : List Match} (h : c.Awaits (m :: ms)) (budget : Nat)
    (multiEdge : Bool) (mask : Selection) :
    collect g (budget + 1) ⟨c, multiEdge, mask, none, false⟩ drafts left =
      collect g budget ⟨(c.accept m).2, multiEdge,
        mask ∪ (contraction g).selection m.vertices, none, false⟩ (drafts ++ [ofMatch g m]) left := by
  have hmore : (Cursor.hasNext c).1 = true := congrArg Prod.fst h.hasNext_cons
  have hgive : Cursor.next c = (.ok ((contraction g).selection m.vertices), (c.accept m).2) := by
    rw [← hc]
    exact h.next_cons (deadScope?_of_contraction hc)
  let parts : RemainderCursor MotifCursor := ⟨c, multiEdge, mask, none, false⟩
  have hask : Cursor.hasNext parts = (true, parts.asked) := RemainderCursor.hasNext_of_more hmore
  have hrest : (Cursor.hasNext parts).2.atRemainder = (false, (Cursor.hasNext parts).2) := by
    rw [hask, RemainderCursor.atRemainder_asked]
    exact Prod.ext (congrArg (!·) hmore) rfl
  have hnext : Cursor.next parts = (.ok ((contraction g).selection m.vertices),
      ⟨(c.accept m).2, multiEdge, mask ∪ (contraction g).selection m.vertices, none, false⟩) := by
    refine (RemainderCursor.next_of_ok hmore (congrArg Prod.fst hgive)).trans ?_
    rw [hgive]
  rw [collect_of_next (congrArg Prod.fst hask) hrest hnext, if_neg Bool.false_ne_true, ofMatch, ← hc]
  rfl

/-- What is left comes last, if anything is. -/
theorem collect_rest (h : c.Awaits []) (budget : Nat) (multiEdge : Bool) (mask : Selection) :
    collect g (budget + 1) ⟨c, multiEdge, mask, none, false⟩ drafts left =
      .ok (drafts, (Remainder.compute g (.whole g) mask [] multiEdge).elim left
        Selection.elements) := by
  have hspent : (Cursor.hasNext c).1 = false := congrArg Prod.fst h.hasNext_nil
  let parts : RemainderCursor MotifCursor := ⟨c, multiEdge, mask, none, false⟩
  have hinner : (Cursor.hasNext parts.asked.settle.inner).1 = false := by
    rw [RemainderCursor.hasNext_inner_settle]
    exact hspent
  have hsettled : parts.asked.settle.remainder =
      Remainder.compute g (.whole g) mask [] multiEdge := by
    rw [RemainderCursor.remainder_settle rfl]
    show Remainder.compute c.contraction.view.graph c.contraction.view.mask _ _ _ = _
    rw [hc]
    rfl
  have hreach : parts.asked.blocked? = none := by
    show (Cursor.graph (Cursor.hasNext c).2).deadScope? (Cursor.domain (Cursor.hasNext c).2).scopes =
      none
    rw [Cursor.Lawful.graph_hasNext, Cursor.Lawful.domain_hasNext]
    exact deadScope?_of_contraction hc
  have hask : Cursor.hasNext parts =
      (parts.asked.settle.remainder.isSome, parts.asked.settle) :=
    RemainderCursor.hasNext_of_settled hspent hreach
  rw [← hsettled]
  cases hleft : parts.asked.settle.remainder with
  | none =>
    rw [hleft] at hask
    exact collect_of_spent (congrArg Prod.fst hask) (budget + 1)
  | some rest =>
    have hmore : (Cursor.hasNext parts).1 = true := by
      rw [hask, hleft]
      rfl
    have hrest : (Cursor.hasNext parts).2.atRemainder = (true, (Cursor.hasNext parts).2) := by
      rw [hask, ← RemainderCursor.asked_settle, RemainderCursor.atRemainder_asked, hinner]
      rfl
    have hnext : Cursor.next parts = (.ok rest, { parts.asked.settle with remainder := none }) := by
      refine (RemainderCursor.next_of_settled hspent hreach).trans ?_
      rw [hleft]
      rfl
    rw [collect_of_next hmore hrest hnext, if_pos rfl]
    -- once it is taken there is nothing more
    have hdone : Cursor.hasNext { parts.asked.settle with remainder := none } = (false, _) :=
      RemainderCursor.hasNext_of_taken hinner RemainderCursor.computed_settle rfl
    exact collect_of_spent (congrArg Prod.fst hdone) budget

end Loop

/-- With budget for every match that is to come and for the remainder, the loop makes a draft of
each match and keeps what they leave. -/
theorem collect_eq {c : MotifCursor} {found : List Match} (h : c.Awaits found)
    (hc : c.contraction = contraction g) {budget : Nat} (hb : found.length < budget)
    (multiEdge : Bool) (mask : Selection) (drafts : List Draft) (left : IdSet) :
    collect g budget ⟨c, multiEdge, mask, none, false⟩ drafts left =
      .ok (drafts ++ found.map (ofMatch g),
        (Remainder.compute g (.whole g)
          (Remainder.claimed mask (found.map fun m => (contraction g).selection m.vertices)) []
          multiEdge).elim left Selection.elements) := by
  induction found generalizing c budget mask drafts with
  | nil =>
    obtain ⟨budget, rfl⟩ := Nat.exists_eq_add_one.2 hb
    rw [collect_rest hc h]
    simp [Remainder.claimed]
  | cons m ms ih =>
    obtain ⟨budget, rfl⟩ := Nat.exists_eq_add_one.2 (Nat.zero_lt_of_lt hb)
    rw [collect_match hc h, ih h.accept hc (Nat.lt_of_succ_lt_succ hb)]
    simp [Remainder.claimed, ofMatch]

/-! ## The list -/

theorem mem_unclaimed {parts : List Selection} {multiEdge : Bool} {e : ElementId}
    (he : g.contains e = true) (hx : isExtent e = false) (hp : ∀ part ∈ parts, e ∉ part.elements) :
    e ∈ unclaimed g parts multiEdge := by
  have hmask : e ∉ (⟨.unionOf parts Selection.elements, .unionOf parts Selection.scopes⟩ :
      Selection).elements := by
    intro he
    obtain ⟨part, hpart, hep⟩ := IdSet.mem_unionOf.1 he
    exact hp part hpart hep
  have hdomain : e ∈ (Selection.whole g).elements := mem_elements.2 he
  obtain ⟨s, hs, hes⟩ := Remainder.mem_compute g [] multiEdge hdomain hx hmask
  unfold unclaimed
  simp only [hs]
  exact hes

/-- The drafts, by a search in place of the cursors. Taking the parts does not fail. -/
theorem list_eq (g : Graph) (multiEdge : Bool) : list g multiEdge =
    match copies g with
    | .error ref => .error (.dead ref)
    | .ok copied =>
      let drafts := (regionMatches g).map (ofMatch g) ++ copied
      match (unclaimed g (regionParts g) multiEdge).toList.find? fun e =>
        !drafts.any fun d => decide (e ∈ d.elements) with
      | some e => .error (.unplaced (g.nameOf e))
      | none => .ok drafts := by
  have hof : Matcher.ofMotif motif = .ok regionMatcher := rfl
  let regions : MotifCursor := .start (contraction g) regionMatcher false
  have hnew : MotifCursor.new (.whole g) (some regionTest) motif false = .ok regions :=
    MotifCursor.new_of_ofMotif hof
  have hawaits : regions.Awaits (regionMatches g) :=
    MotifCursor.awaits_start hof (.whole g) (some regionTest) false
  let parts := RemainderCursor.new regions multiEdge
  have hrun : collect g (Cursor.capacity parts + 1) parts [] ∅ =
      .ok ((regionMatches g).map (ofMatch g), unclaimed g (regionParts g) multiEdge) := by
    have hbudget : (regionMatches g).length < Cursor.capacity parts + 1 :=
      Nat.lt_succ_of_le (Nat.le_succ_of_le hawaits.length_le)
    refine (collect_eq hawaits rfl hbudget multiEdge .empty [] ∅).trans ?_
    rw [show (regionMatches g).map _ = regionParts g from rfl, Remainder.claimed_empty]
    rfl
  rw [list, hnew]
  dsimp only
  generalize collect g (Cursor.capacity parts + 1) parts [] ∅ = run at hrun ⊢
  subst hrun
  rfl

theorem list_eq_ok {multiEdge : Bool} {ds : List Draft} (h : list g multiEdge = .ok ds) :
    ∃ copied, copies g = .ok copied ∧ ds = (regionMatches g).map (ofMatch g) ++ copied ∧
      ∀ e ∈ unclaimed g (regionParts g) multiEdge, ∃ d ∈ ds, e ∈ d.elements := by
  rw [list_eq] at h
  split at h
  · cases h
  · next copied hcopied =>
    dsimp only at h
    split at h
    · cases h
    · next hnone =>
      cases h
      refine ⟨copied, hcopied, rfl, fun e he => ?_⟩
      have hsome := List.find?_eq_none.1 hnone e he
      rw [Bool.not_eq_true', Bool.not_eq_false, List.any_eq_true] at hsome
      obtain ⟨d, hd, hed⟩ := hsome
      exact ⟨d, hd, of_decide_eq_true hed⟩

/-- The drafts that are found are as described. -/
theorem drafted_of_list (h : g.Agrees) {multiEdge : Bool} {ds : List Draft}
    (hl : list g multiEdge = .ok ds) : Drafted g ds := by
  obtain ⟨copied, hcopied, rfl, hplaced⟩ := list_eq_ok hl
  refine ⟨fun d hd => ?_, ?_, fun a b ha hb hab => ?_, fun e he hx => ?_⟩
  · rcases List.mem_append.1 hd with hd | hd
    · obtain ⟨m, hm, rfl⟩ := List.mem_map.1 hd
      exact .inl (isRegion_of_mem_matches h hm)
    · exact .inr (isCopy_of_mem_copies h hcopied hd)
  · refine List.pairwise_append.2 ⟨pairwise_matches h, ?_, fun d hd d' hd' => ?_⟩
    · refine (nodup_copies hcopied).imp_of_mem fun {d d'} hd _ hne => ⟨hne, fun e he => ?_⟩
      rw [(isCopy_of_mem_copies h hcopied hd).region_eq] at he
      exact absurd he IdSet.not_mem_empty
    · obtain ⟨m, hm, rfl⟩ := List.mem_map.1 hd
      obtain ⟨r, hr⟩ := isRegion_of_mem_matches h hm
      have hcopy := isCopy_of_mem_copies h hcopied hd'
      refine ⟨hr.ne_of_isCopy hcopy, fun e _ => ?_⟩
      rw [hcopy.region_eq]
      exact IdSet.not_mem_empty
  · exact List.mem_append_right _ (mem_copies h hcopied ha hb hab)
  · -- what a match claims is in its draft, and the rest is in the remainder
    by_cases hclaimed : ∃ m ∈ regionMatches g, e ∈ ((contraction g).selection m.vertices).elements
    · obtain ⟨m, hm, hem⟩ := hclaimed
      exact ⟨ofMatch g m, List.mem_append_left _ (List.mem_map_of_mem hm), hem⟩
    · refine hplaced e (mem_unclaimed he hx fun part hpart hep => ?_)
      obtain ⟨m, hm, rfl⟩ := List.mem_map.1 hpart
      exact hclaimed ⟨m, hm, hep⟩

end Draft
end Dataflow
