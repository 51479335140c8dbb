import Dataflow.Proofs.Contraction
import Dataflow.Proofs.Flow.Edits
import Dataflow.Proofs.Flow.Merging

/-!
# Ways from `head` to `tail`

In a verified graph every inner element lies on a way from `head` to `tail`. An edit
that merges maps ways to ways, and a boundary that goes in lies on a way of the old
graph, so no edit takes an element off its way. Along its way an element that works
meets a tap on either side, and the first one lies strictly above.

What leads to an element starts at one place then, which is what the search for the ways to
the element asks for (`Rooted`). A boundary on a scope keeps that of any graph.

Results:

* `OnPath.rooted`, `Rooted.boundaryOn`: where what leads to an element starts;
* `OnPath.not_leads_head`: nothing leads back to `head`;
* `Edit.onPath`, `Edits.onPath`: every edit keeps what it keeps on a way;
* `exists_tap_above`, `exists_tap_below`: the taps next to a region.
-/
namespace Dataflow
namespace Graph

open Relation

variable {g g' : Graph} {rank : ElementId → Nat}

theorem RankedBy.le (h : g.RankedBy rank) {a b : ElementId} (hab : ReflTransGen g.Leads a b) :
    rank a ≤ rank b := by
  induction hab with
  | refl => exact Nat.le_refl _
  | tail _ hcb ih => exact Nat.le_trans ih (Nat.le_of_lt (h _ _ hcb))

/-- No scope leads to the element. -/
def Unfed (g : Graph) (r : ElementId) : Prop := ∀ a, ¬ g.Leads a r

/-- Nothing but the element itself leads to it. -/
theorem Unfed.eq_of_leads {r a : ElementId} (h : g.Unfed r) (har : ReflTransGen g.Leads a r) :
    a = r := by
  rcases har.cases_tail with heq | ⟨b, -, hb⟩
  · exact heq.symm
  · exact absurd hb (h b)

/-- The start of a chain of scopes is live, if the chain leads anywhere. -/
theorem EndsLive.contains_of_ne (h : g.EndsLive) {a b : ElementId}
    (hab : ReflTransGen g.Leads a b) (hne : a ≠ b) :
    g.contains a = true ∧ g.contains b = true := by
  obtain ⟨c, hac, -⟩ := hab.cases_head.resolve_left hne
  obtain ⟨d, -, hdb⟩ := hab.cases_tail.resolve_left hne.symm
  exact ⟨(h a c hac).1, (h d b hdb).2⟩

/-- A graph with a topological order in which all that leads to one element starts at one
place. -/
structure Rooted (g : Graph) : Prop extends g.Ordered where
  root_unique : ∀ r r' x, g.Unfed r → g.Unfed r' → ReflTransGen g.Leads r x →
    ReflTransGen g.Leads r' x → r = r'

/-- Where there is no cycle, what leads to an element starts somewhere. -/
theorem Acyclic.exists_root (h : g.Acyclic) (x : ElementId) :
    ∃ r, g.Unfed r ∧ ReflTransGen g.Leads r x := by
  obtain ⟨rank, hrank⟩ := h
  induction hn : rank x using Nat.strongRecOn generalizing x with
  | ind n ih =>
    by_cases hx : g.Unfed x
    · exact ⟨x, hx, .refl⟩
    · obtain ⟨a, ha⟩ := not_forall_not.1 hx
      obtain ⟨r, hr, hra⟩ := ih (rank a) (hn ▸ hrank a x ha) a rfl
      exact ⟨r, hr, hra.tail ha⟩

/-- Where every inner element lies on a way, what leads to an element starts at `head`, or at
`tail` if nothing leads there. -/
theorem OnPath.rooted (h : g.OnPath) (ho : g.Ordered) : g.Rooted := by
  have hext : ∀ {r}, g.Unfed r → g.contains r = true → isExtent r = true := by
    intro r hr hlive
    by_contra hx
    have hx' : isExtent r = false := by simpa using hx
    have hhead := hr.eq_of_leads (h r hlive hx').1
    rw [← hhead] at hx'
    cases hx'
  refine ⟨ho, fun r r' x hr hr' hrx hrx' => ?_⟩
  by_cases hne : r = x
  · exact (hr.eq_of_leads (hne ▸ hrx')).symm
  by_cases hne' : r' = x
  · exact hr'.eq_of_leads (hne' ▸ hrx)
  obtain ⟨hlive, hx⟩ := ho.ends.contains_of_ne hrx hne
  obtain ⟨hlive', -⟩ := ho.ends.contains_of_ne hrx' hne'
  -- an inner element leads to `tail`, so `tail` is fed
  have htail : ∀ {y}, g.Unfed tail → y ≠ head → y ≠ tail → g.contains y = true → False := by
    intro y hun hy hy' hlive
    have hinner : isExtent y = false := by
      rw [← Bool.not_eq_true, isExtent_iff]
      exact fun he => he.elim hy hy'
    exact hy' (hun.eq_of_leads (h y hlive hinner).2)
  rcases isExtent_iff.1 (hext hr hlive) with rfl | rfl <;>
    rcases isExtent_iff.1 (hext hr' hlive') with rfl | rfl
  · rfl
  · exact (htail hr' (Ne.symm hne) (Ne.symm hne') hx).elim
  · exact (htail hr (Ne.symm hne') (Ne.symm hne) hx).elim
  · rfl

/-- A boundary on a scope adds no place to start at. -/
theorem Rooted.boundaryOn (h : g.Rooted) {scheme : String} {i : ScopeId} {sc : Scope}
    (hi : g.scope? i = some sc) : (g.boundaryOn scheme i).Rooted := by
  have hlift : ∀ {a b}, ReflTransGen (g.boundaryOn scheme i).Leads a b →
      ReflTransGen g.Leads (instead g.size sc.origin a) (instead g.size sc.origin b) := by
    intro a b hab
    refine ReflTransGen.lift' (instead g.size sc.origin) (fun a b hl => ?_) _ _ hab
    show ReflTransGen g.Leads (instead g.size sc.origin a) (instead g.size sc.origin b)
    rcases leads_boundaryOn scheme hi hl with ⟨rfl, rfl⟩ | ⟨rfl, rfl⟩ | hl
    · rw [instead_self, instead_of_ne (Nat.ne_of_lt (h.agrees.target_lt hi))]
      exact .single ⟨i, sc, hi, rfl, rfl⟩
    · rw [instead_self, instead_of_ne (Nat.ne_of_lt (h.agrees.origin_lt hi))]
    · obtain ⟨ha, hb⟩ := h.agrees.lt_size_of_leads hl
      rw [instead_of_ne (Nat.ne_of_lt ha), instead_of_ne (Nat.ne_of_lt hb)]
      exact .single hl
  have hunfed : ∀ {r}, (g.boundaryOn scheme i).Unfed r → r ≠ g.size ∧ g.Unfed r := by
    intro r hr
    refine ⟨?_, fun a ⟨s, tc, htc, ho, ht⟩ => ?_⟩
    · rintro rfl
      exact hr _ ⟨i, _, scope?_boundaryOn_self scheme hi, rfl, rfl⟩
    · by_cases hsi : s = i
      · subst hsi
        rw [hi] at htc
        cases htc
        exact hr _ ⟨_, _, scope?_boundaryOn_new scheme hi, rfl, ht⟩
      · exact hr _ ⟨s, tc, scope?_boundaryOn_old scheme hi htc hsi, ho, ht⟩
  refine ⟨h.toOrdered.boundaryOn scheme hi, fun r r' x hr hr' hrx hrx' => ?_⟩
  obtain ⟨hne, hr⟩ := hunfed hr
  obtain ⟨hne', hr'⟩ := hunfed hr'
  have hrx := hlift hrx
  have hrx' := hlift hrx'
  rw [instead_of_ne hne] at hrx
  rw [instead_of_ne hne'] at hrx'
  exact h.root_unique r r' _ hr hr' hrx hrx'

theorem OnPath.not_leads_head (h : g.OnPath) (hs : g.Shaped) (a : ElementId) :
    ¬ g.Leads a head := by
  intro ha
  by_cases hx : isExtent a = true
  · rcases isExtent_iff.1 hx with rfl | rfl
    · exact hs.not_leads_self head ha
    · exact hs.tail_last head ha
  · obtain ⟨rank, hrank⟩ := hs.acyclic
    have hway := (h a (hs.ends a head ha).1 (by simpa using hx)).1
    exact absurd (hrank a head ha) (Nat.not_lt_of_le (RankedBy.le hrank hway))

/-- The ends of a scope lie on a way, extents included. -/
theorem OnPath.of_leads (h : g.OnPath) (hs : g.Shaped) {a c : ElementId} (hl : g.Leads a c) :
    ReflTransGen g.Leads head a ∧ ReflTransGen g.Leads c tail := by
  constructor
  · by_cases hx : isExtent a = true
    · rcases isExtent_iff.1 hx with rfl | rfl
      · exact .refl
      · exact absurd hl (hs.tail_last c)
    · exact (h a (hs.ends a c hl).1 (by simpa using hx)).1
  · by_cases hx : isExtent c = true
    · rcases isExtent_iff.1 hx with rfl | rfl
      · exact absurd hl (h.not_leads_head hs a)
      · exact .refl
    · exact (h c (hs.ends a c hl).2 (by simpa using hx)).2

/-- An element that goes in between `o` and some of what `o` feeds lies on a way, and so
does everything that was there. -/
theorem OnPath.insert (h : g.OnPath) (hs : g.Shaped) {n o c : ElementId}
    (hto : ∀ a b, g.Leads a b → g'.Leads a b ∨ (a = o ∧ g'.Leads n b))
    (hin : g'.Leads o n) (hout : g'.Leads n c) (hoc : g.Leads o c)
    (hlive : ∀ e, g'.contains e = true → g.contains e = true ∨ e = n) : g'.OnPath := by
  have hway : ∀ {a b}, ReflTransGen g.Leads a b → ReflTransGen g'.Leads a b := by
    intro a b hab
    induction hab with
    | refl => exact .refl
    | tail _ hbd ih =>
      rcases hto _ _ hbd with hl | ⟨rfl, hl⟩
      · exact ih.tail hl
      · exact (ih.tail hin).tail hl
  intro e he hx
  rcases hlive e he with he | rfl
  · obtain ⟨hhead, htail⟩ := h e he hx
    exact ⟨hway hhead, hway htail⟩
  · obtain ⟨hhead, htail⟩ := h.of_leads hs hoc
    exact ⟨(hway hhead).tail hin, (hway htail).head hout⟩

variable {scheme : String} {rules : TapRules}

theorem OnPath.insertAfter (h : g.OnPath) (hs : g.Shaped) {id : ElementId} {x : Element}
    (hb : x.kind.isBoundary = true) (hid : g.contains id = true) (hx : isExtent id = false) :
    (g.insertAfter id x).2.OnPath := by
  have hg := grows_insertAfter (g := g) hb id
  have hmoved : ∀ {s sc}, g.scope? s = some sc → sc.origin = id →
      (g.insertAfter id x).2.Leads g.size sc.target := fun {s sc} hsc ho =>
    ⟨s, _, hs.agrees.scope?_insertAfter_old hsc, by rw [Scope.origin_rerouted, if_pos ho],
      Scope.target_rerouted⟩
  -- something is behind the element, as it lies on a way to `tail`
  obtain ⟨c, s, sc, hsc, ho, ht⟩ : ∃ c, g.Leads id c := by
    rcases (h id hid hx).2.cases_head with rfl | ⟨c, hc, -⟩
    · cases hx
    · exact ⟨c, hc⟩
  refine h.insert hs (n := g.size) (o := id) (c := c) (fun a b hl => ?_)
    ⟨_, _, hs.agrees.scope?_insertAfter_new id, rfl, rfl⟩ (ht ▸ hmoved hsc ho)
    ⟨s, sc, hsc, ho, ht⟩ (fun e he => ?_)
  · obtain ⟨s', sc', hsc', rfl, rfl⟩ := hl
    by_cases hid' : sc'.origin = id
    · exact .inr ⟨hid', hmoved hsc' hid'⟩
    · exact .inl ⟨s', _, hs.agrees.scope?_insertAfter_old hsc',
        by rw [Scope.origin_rerouted, if_neg hid'], Scope.target_rerouted⟩
  · exact hg.contains_or_new he

theorem OnPath.insertOnScope (h : g.OnPath) (hs : g.Shaped) {i : ScopeId} {sc : Scope}
    {x : Element} (hb : x.kind.isBoundary = true) (hi : g.scope? i = some sc) :
    (g.insertOnScope i x).2.OnPath := by
  have hg := grows_insertOnScope hi hb
  refine h.insert hs (n := g.size) (o := sc.origin) (c := sc.target) (fun a b hl => ?_)
    ⟨_, _, scope?_insertOnScope_self hi, rfl, rfl⟩ ⟨_, _, scope?_insertOnScope_new hi, rfl, rfl⟩
    ⟨i, sc, hi, rfl, rfl⟩ (fun e he => ?_)
  · obtain ⟨s', sc', hsc', rfl, rfl⟩ := hl
    by_cases hsi : s' = i
    · subst hsi
      rw [hi] at hsc'
      cases hsc'
      exact .inr ⟨rfl, _, _, scope?_insertOnScope_new hi, rfl, rfl⟩
    · exact .inl ⟨s', sc', scope?_insertOnScope_old hi hsc' hsi, rfl, rfl⟩
  · exact hg.contains_or_new he

theorem Edit.onPath (he : Edit scheme rules g g') (hs : g.Shaped) (h : g.OnPath) : g'.OnPath := by
  cases he with
  | recount n => exact (merges_recount hs n).onPath h
  | after name place hid =>
    exact h.insertAfter hs rfl (contains_of_hasKind hid)
      (hs.isExtent_eq_false (fun _ => rfl) hid)
  | on name place hi _ _ => exact h.insertOnScope hs rfl hi
  | splice ha hi hp => exact (merges_removePassThrough ha hi hs hp).onPath h
  | replace hr _ => exact (merges_replaceElement hr hs).onPath h
  | resolve => exact ((relabels_resolveFields g).merges hs).onPath h

theorem Edits.onPath (he : Edits scheme rules g g') (hs : g.Shaped) (h : g.OnPath) : g'.OnPath :=
  (he.induction hs h fun _ _ ha hp hab => hab.onPath ha hp).2

/-! ## The taps next to what works -/

theorem Shaped.isTap_or_isExtent (hs : g.Shaped) {e : ElementId} (he : g.contains e = true)
    (hw : ¬ g.Works e) : g.hasKind Kind.isTap e = true ∨ isExtent e = true := by
  obtain ⟨x, hx⟩ := contains_iff.1 he
  rw [works_iff] at hw
  by_cases htap : g.hasKind Kind.isTap e = true
  · exact .inl htap
  · right
    by_cases hext : g.hasKind Kind.isExtent e = true
    · obtain ⟨y, hy, hk⟩ := hasKind_iff.1 hext
      exact (hs.extent_iff e y hy).1 hk
    · exact absurd ⟨he, by simpa using htap, by simpa using hext⟩ hw

/-- On the way from `head` to an element that works stands a tap that feeds its region,
strictly above. -/
theorem exists_tap_above (hs : g.Shaped) (hrank : g.RankedBy rank) {x : ElementId}
    (hx : g.Works x) (hway : ReflTransGen g.Leads head x) :
    ∃ u y, g.hasKind Kind.isTap u = true ∧ g.Leads u y ∧ g.Works y ∧
      ReflTransGen (g.Linked g.Works) y x ∧ rank u < rank x := by
  induction hway with
  | refl => exact absurd rfl (hs.ne_extent (fun _ => rfl) hx).1
  | @tail b x _ hbx ih =>
    by_cases hb : g.Works b
    · obtain ⟨u, y, hu, huy, hy, hyb, hlt⟩ := ih hb
      exact ⟨u, y, hu, huy, hy, hyb.tail ⟨hb, hx, .inl hbx⟩, Nat.lt_trans hlt (hrank b x hbx)⟩
    · rcases hs.isTap_or_isExtent (hs.ends b x hbx).1 hb with htap | hext
      · exact ⟨b, x, htap, hbx, hx, .refl, hrank b x hbx⟩
      · -- `head` feeds sources, which do not work
        rcases isExtent_iff.1 hext with rfl | rfl
        · have hsrc := hs.head_first x hbx
          exact absurd hx (not_works_of_isTap (hasKind_imp (fun _ => Kind.isTap_of_isSource) hsrc))
        · exact absurd hbx (hs.tail_last x)

/-- On the way from an element that works to `tail` stands a tap that its region feeds. -/
theorem exists_tap_below (hs : g.Shaped) (h : g.OnPath) {x : ElementId} (hx : g.Works x)
    (hway : ReflTransGen g.Leads x tail) :
    ∃ y w, g.Works y ∧ g.hasKind Kind.isTap w = true ∧ g.Leads y w ∧
      ReflTransGen (g.Linked g.Works) x y := by
  induction hway using ReflTransGen.head_induction_on with
  | refl => exact absurd rfl (hs.ne_extent (fun _ => rfl) hx).2
  | @head x b hxb _ ih =>
    by_cases hb : g.Works b
    · obtain ⟨y, w, hy, hw, hyw, hby⟩ := ih hb
      exact ⟨y, w, hy, hw, hyw, hby.head ⟨hx, hb, .inl hxb⟩⟩
    · rcases hs.isTap_or_isExtent (hs.ends x b hxb).2 hb with htap | hext
      · exact ⟨x, b, hx, htap, hxb, .refl⟩
      · rcases isExtent_iff.1 hext with rfl | rfl
        · exact absurd hxb (h.not_leads_head hs x)
        · have hsink := hs.tail_fed x hxb
          exact absurd hx (not_works_of_isTap (hasKind_imp (fun _ => Kind.isTap_of_isSink) hsink))

end Graph
end Dataflow
