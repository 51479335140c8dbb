import Dataflow.Proofs.Diagnostics.Verify
import Dataflow.Proofs.Flow.Ways

/-!
# What edits uphold of a sound graph

Rules may put a tap before an every, so a sound graph does not stay sound edit by edit.
`Upheld` is the part of soundness that does stay: every inner element lies on a way, what
is no tap feeds an every only if it may, buffers stay alone, and a sink that is read back
can return what it wrote.

Results:

* `Sound.upheld`: a sound graph upholds it;
* `Edit.upheld`, `Edits.upheld`: edits keep it.
-/
namespace Dataflow
namespace Graph

variable {scheme : String} {rules : TapRules} {g g' : Graph}

/-- The part of soundness that every edit keeps. -/
structure Upheld (rules : TapRules) (g : Graph) : Prop where
  onPath : g.OnPath
  everies : ∀ a e, g.Leads a e → g.hasKind Kind.isEvery e = true →
    g.hasKind Kind.feedsEvery a = true ∨ g.hasKind Kind.passesOn a = true
  buffers : ∀ b e, g.hasKind Kind.isBuffer b = true → g.Leads e b ∨ g.Leads b e →
    g.hasKind Kind.isEvery e = false
  readers : ∀ t tap, g.kind? t = some (.sink tap) → ∀ e, g.Leads t e → e ≠ tail →
    rules.symmetrical tap = true

theorem Sound.upheld (h : g.Sound rules) (hs : g.Shaped) : g.Upheld rules where
  onPath := h.onPath
  everies a e hl he := .inl (h.everies a e hl he)
  buffers := h.buffers
  readers t tap ht e hl hne := by
    refine h.readers t tap ht e hl ?_
    rw [← Bool.not_eq_true, isExtent_iff]
    rintro (rfl | rfl)
    · exact h.onPath.not_leads_head hs t hl
    · exact hne rfl

/-- A sink was a sink over the same tap before. -/
theorem Rewrites.sink (h : Rewrites.{0} g g') {t : ElementId} {tap : Tap}
    (ht : g'.kind? t = some (.sink tap)) : g.kind? t = some (.sink tap) := by
  obtain ⟨x', hx', hk'⟩ := Option.map_eq_some_iff.1 ht
  have hc : g'.contains t = true := contains_iff.2 ⟨x', hx'⟩
  rcases Nat.lt_or_ge t g.size with hlt | hge
  · obtain ⟨x, hx, -, hk⟩ := h.left t x' hlt hx'
    rw [kind?, hx, Option.map_some, ← hk']
    rcases hk with hk | ⟨-, hk⟩
    · rw [hk]
    · rw [hk'] at hk
      cases hk
  · obtain ⟨y, hy, hk⟩ := hasKind_iff.1 (h.fresh t hge hc)
    rw [hx'] at hy
    cases hy
    rw [hk'] at hk
    cases hk

theorem passesOn_of_isEvery {e : ElementId} (he : g.hasKind Kind.isEvery e = true) :
    g.hasKind Kind.passesOn e = false :=
  hasKind_eq_false (fun _ => Kind.passesOn_of_isEvery) he

/-- What leads to an every and is no tap did so before. -/
theorem Edit.leads_every (he : Edit scheme rules g g') (hs : g.Shaped) (h : g.Upheld rules)
    {a e : ElementId} (hl : g'.Leads a e) (hev : g'.hasKind Kind.isEvery e = true)
    (ha : g'.hasKind Kind.passesOn a = false) : g.Leads a e := by
  have hrw := (Edit.keeps.{0} hs he).2
  rcases he.leads hs hl with hl' | ⟨p, hp, -, hpe⟩ | ⟨hpass, -⟩ | ⟨hpass, -⟩
  · exact hl'
  · -- a pipe feeds no every
    rcases h.everies p e hpe (hrw.hasKind_of (fun _ => rfl) hev) with hf | hf
    · rw [hasKind_eq_false (fun _ => Kind.feedsEvery_of_isPipe) hp] at hf
      cases hf
    · rw [hasKind_eq_false (fun _ => Kind.passesOn_of_isPipe) hp] at hf
      cases hf
  · rw [passesOn_of_isEvery hev] at hpass
    cases hpass
  · rw [ha] at hpass
    cases hpass

theorem Edit.upheld (he : Edit scheme rules g g') (hs : g.Shaped) (h : g.Upheld rules) :
    g'.Upheld rules := by
  obtain ⟨hs', hrw⟩ := Edit.keeps.{0} hs he
  refine ⟨he.onPath hs h.onPath, fun a e hl hev => ?_, fun b e hb hl => ?_,
    fun t tap ht e hl hne => ?_⟩
  · cases hpass : g'.hasKind Kind.passesOn a with
    | true => exact .inr rfl
    | false =>
      have hl' := he.leads_every hs h hl hev hpass
      have hlt := (hs.agrees.lt_size_of_leads hl').1
      have hlive := (hs'.ends a e hl).1
      rw [hrw.hasKind_eq (fun _ => rfl) hlt hlive] at hpass
      rw [hrw.hasKind_eq (fun _ => rfl) hlt hlive]
      rcases h.everies a e hl' (hrw.hasKind_of (fun _ => rfl) hev) with hf | hf
      · exact .inl hf
      · rw [hpass] at hf
        cases hf
  · -- next to a buffer an every would have stood there before
    have hbe := hasKind_imp (fun _ => Kind.isEvery_of_isBuffer) hb
    rw [← Bool.not_eq_true]
    intro hev
    have hold : g.Leads e b ∨ g.Leads b e := hl.imp
      (fun hl => he.leads_every hs h hl hbe (passesOn_of_isEvery hev))
      (fun hl => he.leads_every hs h hl hev (passesOn_of_isEvery hbe))
    have := h.buffers b e (hrw.hasKind_of (fun _ => rfl) hb) hold
    rw [hrw.hasKind_of (fun _ => rfl) hev] at this
    cases this
  · have htg := hrw.sink ht
    rcases he.leads hs hl with hl' | ⟨p, hp, htp, -⟩ | ⟨-, hread⟩ | ⟨-, hsym⟩
    · exact h.readers t tap htg e hl' hne
    · exact h.readers t tap htg p htp (hs.ne_extent (fun _ => rfl) hp).2
    · obtain ⟨x, hx, hk⟩ := Option.map_eq_some_iff.1 htg
      obtain ⟨c, hc, htc⟩ := hread (hasKind_iff.2 ⟨x, hx, by rw [hk]; rfl⟩)
      exact h.readers t tap htg c htc hc
    · exact hsym tap ht

theorem Edits.upheld (he : Edits scheme rules g g') (hs : g.Shaped) (h : g.Upheld rules) :
    g'.Upheld rules :=
  (he.induction (P := Upheld rules) hs h fun _ _ ha hup hab => hab.upheld ha hup).2

end Graph
end Dataflow
