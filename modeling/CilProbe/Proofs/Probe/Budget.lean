/-
CilProbe/Proofs/Probe/Budget.lean

How many passes a layout may take.  The number decides whether a layout is found, and never
which one: there is a number of passes that the code takes, no more than its branches and one,
and any limit from there on gives the same layout (`layout_budget`).

A layout is the only part of instrumenting a method that looks at the limit, so with a larger
one everything comes out as before (`succeedsLike_probe`).  To say so along a computation that
fails at many places, `SucceedsLike x y` lets the second one succeed more often.
-/
import CilProbe.Proofs.Code.Settling
import CilProbe.Proofs.Probe.Relocation

namespace CilProbe

/-! ### Succeeding more often -/

/-- Where `x` succeeds, so does `y`, with the same result and the same state. -/
def SucceedsLike {ε σ α : Type} (x y : ExceptT ε (StateM σ) α) : Prop :=
  ∀ ⦃s a s'⦄, x.run.run s = (.ok a, s') → y.run.run s = (.ok a, s')

namespace SucceedsLike

variable {ε σ α β : Type} {f g : α → ExceptT ε (StateM σ) β}

theorem refl (x : ExceptT ε (StateM σ) α) : SucceedsLike x x := fun _ _ _ h => h

/-- The same first part. -/
theorem bind (x : ExceptT ε (StateM σ) α) (h : ∀ a, SucceedsLike (f a) (g a)) :
    SucceedsLike (x >>= f) (x >>= g) := by
  intro s b s'' hx
  obtain ⟨a, s', ha, hb⟩ := attempt_bind_eq_ok.mp hx
  exact attempt_bind_eq_ok.mpr ⟨a, s', ha, h a hb⟩

/-- A first part that is there already, and may be there more often. -/
theorem known_bind {r r' : Except ε α} (hr : ∀ a, r = .ok a → r' = .ok a)
    (f : α → ExceptT ε (StateM σ) β) :
    SucceedsLike (ExceptT.mk (pure r) >>= f) (ExceptT.mk (pure r') >>= f) := by
  intro s b s' hx
  obtain ⟨a, ha, hb⟩ := attempt_mk_bind_eq_ok.mp hx
  exact attempt_mk_bind_eq_ok.mpr ⟨a, hr a ha, hb⟩

end SucceedsLike

/-! ### A larger limit -/

variable {limit limit' : Nat}

/-- A draft is finished in the same way with a larger limit. -/
theorem Draft.finish_of_le {d : Draft} {token : Token} {r : ProbedMethod} (hle : limit ≤ limit')
    (h : d.finish limit token = .ok r) : d.finish limit' token = .ok r := by
  obtain ⟨layout, hlayout, h⟩ := bind_eq_ok.mp h
  have hpasses := ((Layout.of_eq_ok_iff hlayout).mp hlayout).2
  refine bind_eq_ok.mpr ⟨layout, ?_, h⟩
  exact (Layout.of_eq_ok_iff hlayout).mpr ⟨rfl, Nat.le_trans hpasses hle⟩

/-- A method is instrumented in the same way with a larger limit. -/
theorem succeedsLike_probe {σ : Type} (hle : limit ≤ limit') (request : ProbeRequest)
    (source : TokenSource (StateM σ)) :
    SucceedsLike (probe limit request source) (probe limit' request source) := by
  -- with an exit or without one, the limit comes in when the draft is finished
  have hclose : ∀ draft : Draft, SucceedsLike
      (do
        let blob ← ExceptT.mk (pure draft.locals.encode)
        let token ← source.localSignature blob
        return .probed (← ExceptT.mk (pure (draft.finish (max limit 1) token))) :
        ExceptT Error (StateM σ) ProbeOutcome)
      (do
        let blob ← ExceptT.mk (pure draft.locals.encode)
        let token ← source.localSignature blob
        return .probed (← ExceptT.mk (pure (draft.finish (max limit' 1) token)))) :=
    fun draft => .bind _ fun blob => .bind _ fun token =>
      .known_bind (fun r h => draft.finish_of_le (by omega) h) _
  unfold probe
  refine .bind _ fun ⟨body, code⟩ => .bind _ fun instructions => .bind _ fun enter => ?_
  split
  · exact .refl _
  refine .bind _ fun _ => .bind _ fun draft => .bind _ fun draft => ?_
  split
  · exact .bind _ hclose
  · exact .bind _ fun ⟨exit, exceptionType⟩ => .bind _ hclose

/-- For code whose labels resolve and which fits, there is one layout, and a number of passes
that it takes.  That is no more than there are branches in the code, and one.  With this many
passes or more it is found; with fewer, they run out.  No other code has a layout at all.

So when a method is instrumented, a larger limit changes nothing, for a source of tokens that
answers the same. -/
theorem layout_budget :
    (∀ l : Listing, l.Resolves → l.Fits →
      (∀ limit limit', l.branches.card + 1 ≤ limit →
        Layout.of l limit ≠ .error (.nonConvergentLayout limit')) ∧
      ∃! layout : Layout, layout.passes ≤ l.branches.card + 1 ∧
        (∀ limit, layout.passes ≤ limit → Layout.of l limit = .ok layout) ∧
        ∀ limit < layout.passes, Layout.of l limit = .error (.nonConvergentLayout limit)) ∧
    (∀ (l : Listing) limit layout, Layout.of l limit = .ok layout → l.Resolves ∧ l.Fits) ∧
    ∀ {σ : Type} (source : TokenSource (StateM σ)) (request : ProbeRequest) (limit limit' : Nat)
      (r : ProbedMethod) (s s' : σ), limit ≤ limit' →
      (probe limit request source).run.run s = (.ok (.probed r), s') →
      (probe limit' request source).run.run s = (.ok (.probed r), s') := by
  refine ⟨fun l hl hfits => ?_, fun l limit layout h => Layout.resolves_of h,
    fun source request limit limit' r s s' hle h => succeedsLike_probe hle request source h⟩
  obtain ⟨layout, hbound, hof⟩ := Layout.exists_of hl hfits
  have hok : ∀ limit, layout.passes ≤ limit → Layout.of l limit = .ok layout :=
    fun limit hle => (hof limit).trans (if_pos hle)
  refine ⟨fun limit limit' hle herror => ?_, layout, ⟨hbound, hok, fun limit hlt => ?_⟩, ?_⟩
  · cases (hok limit (by omega)).symm.trans herror
  · exact (hof limit).trans (if_neg (by omega))
  · rintro layout' ⟨-, hok', -⟩
    -- with enough passes for both, both are the layout that is found
    have hboth := hok (max layout.passes layout'.passes) (by omega)
    exact Except.ok.inj ((hok' _ (by omega)).symm.trans hboth)

/-- Two branches, of which the first pass finds one and the second pass the other, take as many
passes as there can be. -/
theorem layout_budget_cascadeListing :
    cascadeListing.Resolves ∧ cascadeListing.Fits ∧ cascadeListing.branches.card = 2 ∧
      (∀ limit, 3 ≤ limit → Layout.of cascadeListing limit = .ok cascadeLayout) ∧
      (∀ limit < 3, Layout.of cascadeListing limit = .error (.nonConvergentLayout limit)) ∧
      ∀ limit, 32 ≤ limit → (probe limit constantRequest fixedSource).run.run () =
        (.ok (.probed probedConstant), ()) := by
  have hlayout : Layout.of cascadeListing 3 = .ok cascadeLayout := by decide +kernel
  have hcard : cascadeListing.branches.card = 2 := by decide +kernel
  obtain ⟨hlayouts, hcode, hprobes⟩ := layout_budget
  obtain ⟨hresolves, hfits⟩ := hcode cascadeListing 3 cascadeLayout hlayout
  obtain ⟨-, layout, ⟨hbound, hok, hfail⟩, -⟩ := hlayouts cascadeListing hresolves hfits
  obtain rfl := Except.ok.inj ((hok 3 (by omega)).symm.trans hlayout)
  exact ⟨hresolves, hfits, hcard, hok, hfail, fun limit hle =>
    hprobes fixedSource constantRequest 32 limit probedConstant () () hle probe_constantRequest⟩

end CilProbe
