/-
CilProbe/Proofs/Check/Depths.lean

The walk solves the equations of the stack, whatever its order.  Let a walk pass any of
the pending instructions at each step (`Walk.Step`).  If it comes to an end, it has found
the depths that fit, at just what control can reach (`Walk.Made.tells`); and where depths
fit, no walk gets stuck (`Walk.Made.not_stuck`).  The check takes the latest pending
instruction first, so it is one of these walks, and accepts exactly if the equations can
be solved (`stack_depths_exact`).

Since the equations speak of the set of clauses, and of instructions that control can
reach, nothing else matters to the verdict or to the report (`simulateStack_congr`).
-/
import CilProbe.Proofs.Check.Reachable
import Mathlib

namespace CilProbe

namespace Check

variable {code : List (Instruction Offset)} {clauses : List Clause} {returnsValue : Bool}
  {callSites : CallSites}

/-! ### Words -/

theorem le_lastWord (a : UInt16) : a ≤ 0xFFFF := by
  rw [UInt16.le_iff_toNat_le]
  exact Nat.le_of_lt_succ a.toNat_lt

theorem toNat_pred {b : UInt16} (h : b ≠ 0) : (b - 1).toNat = b.toNat - 1 ∧ 0 < b.toNat := by
  have hpos : 0 < b.toNat := Nat.pos_of_ne_zero fun hzero => h (UInt16.toNat_inj.mp hzero)
  have hone : (1 : UInt16) ≤ b := UInt16.le_iff_toNat_le.mpr hpos
  exact ⟨UInt16.toNat_sub_of_le b 1 hone, hpos⟩

theorem le_pred_of_ne {a b : UInt16} (hb : b ≠ 0) (hle : a ≤ b) (hne : a ≠ b) : a ≤ b - 1 := by
  have hne' : a.toNat ≠ b.toNat := fun heq => hne (UInt16.toNat_inj.mp heq)
  rw [UInt16.le_iff_toNat_le] at hle ⊢
  rw [(toNat_pred hb).1]
  omega

/-! ### Walks in any order -/

namespace Walk

/-- Pass one of the pending instructions, whichever it is. -/
inductive Step (g : Ground) (w : Walk) : Walk → Prop
  | pass {n : Nat} {pending : List Nat} {i : Instruction Offset} {w' : Walk} :
      w.pending.Perm (n :: pending) → g.code[n]? = some i →
      Walk.pass g { w with pending } i ((w.at_ n).getD 0) = .ok w' → Step g w w'

/-- A walk that comes about in some order. -/
def Made (g : Ground) (w : Walk) : Prop :=
  ∃ w₀, enterAll g = .ok w₀ ∧ Relation.ReflTransGen (Step g) w₀ w

/-- One of the pending instructions cannot be passed. -/
def Stuck (g : Ground) (w : Walk) : Prop :=
  ∃ n pending i e, w.pending.Perm (n :: pending) ∧ g.code[n]? = some i ∧
    Walk.pass g { w with pending } i ((w.at_ n).getD 0) = .error e

/-- What a walk has found, in code order. -/
def report (code : List (Instruction Offset)) (w : Walk) : StackReport :=
  ⟨(code.zip w.depths.toList).filterMap fun (i, depth) => depth.map (i.offset, ·), w.deepest⟩

section Made

variable {g : Ground} {w w' : Walk}

/-- Each step keeps what a walk has reached, and sets aside no more than it passes. -/
theorem Made.going (hindexed : Indexed g) (h : Made g w) :
    Going g (fun _ => False) w ∧ Entered g g.clauses w := by
  obtain ⟨w₀, h₀, hsteps⟩ := h
  induction hsteps with
  | refl =>
    obtain ⟨hgoing, -, hentered⟩ := going_of_enterAll hindexed h₀
    exact ⟨hgoing, hentered⟩
  | @tail w₁ _ _ hstep ih =>
    obtain ⟨hgoing, hentered⟩ := ih
    cases hstep with
    | @pass n pending _ _ hp hi hpass =>
      obtain ⟨depth, hdepth⟩ := hgoing.pending n (hp.mem_iff.mpr List.mem_cons_self)
      rw [hdepth] at hpass
      obtain ⟨hgoing', -, hkeep⟩ :=
        going_of_pass hindexed hi (w := { w₁ with pending }) hdepth (going_tail hp hgoing) hpass
      exact ⟨hgoing', hentered.mono hkeep⟩

section Within

variable {R : Offset → UInt16 → Prop} {bound : UInt16} (hindexed : Indexed g)
  (hfun : ∀ o d d', R o d → R o d' → d = d') (hR : Closed g R) (hbound : Bounds g R bound)
include hindexed hfun hR hbound

/-- No order leads out of a closed relation. -/
theorem Made.within (h : Made g w) : Within g R bound w := by
  obtain ⟨w₀, h₀, hsteps⟩ := h
  induction hsteps with
  | refl =>
    obtain ⟨w₁, h₁, hwithin⟩ : ∃ w, enterAll g = .ok w ∧ Within g R bound w :=
      enterAll_within hindexed hfun hR
    obtain rfl := Except.ok.inj (h₁.symm.trans h₀)
    exact hwithin
  | tail _ hstep ih =>
    cases hstep with
    | pass hp hi hpass =>
      obtain ⟨j, hj, w₁, hw₁, hwithin⟩ := pass_within hindexed hfun hR hbound ih hp
      obtain rfl := Option.some.inj (hj.symm.trans hi)
      obtain rfl := Except.ok.inj (hw₁.symm.trans hpass)
      exact hwithin

/-- No order gets stuck in a closed relation. -/
theorem Made.not_stuck (h : Made g w) : ¬Stuck g w := by
  rintro ⟨n, pending, i, e, hp, hi, hpass⟩
  have hwithin := h.within hindexed hfun hR hbound
  obtain ⟨j, hj, w₁, hw₁, -⟩ := pass_within hindexed hfun hR hbound hwithin hp
  obtain rfl := Option.some.inj (hj.symm.trans hi)
  rw [hw₁] at hpass
  cases hpass

end Within

/-- The latest first is one of the orders. -/
theorem made_of_run {count : Nat} (hw : Made g w) (h : run g count w = .ok w') : Made g w' := by
  induction count generalizing w with
  | zero =>
    obtain rfl := Except.ok.inj h
    exact hw
  | succ count ih =>
    unfold run at h
    rcases hp : w.pending with - | ⟨n, pending⟩
    · simp only [hp] at h
      obtain rfl := Except.ok.inj h
      exact hw
    · simp only [hp] at h
      rcases hi : g.code[n]? with - | i
      · simp only [hi] at h
        obtain rfl := Except.ok.inj h
        exact hw
      · simp only [hi] at h
        obtain ⟨w₁, hpass, h⟩ := bind_eq_ok.mp h
        obtain ⟨w₀, h₀, hsteps⟩ := hw
        exact ih ⟨w₀, h₀, hsteps.tail (.pass (.of_eq hp) hi hpass)⟩ h

end Made

/-- The check answers with the report on a walk that has come to its end. -/
theorem exists_made (hdistinct : (code.map Instruction.offset).Nodup) {report : StackReport}
    (h : simulateStack code clauses returnsValue callSites = .ok report) :
    ∃ w, Made (.of code clauses returnsValue callSites) w ∧ w.pending = [] ∧
      report = w.report code := by
  obtain ⟨w₀, w, h₀, hrun, hreport⟩ := (simulateStack_eq_ok _ _ _).mp h
  have hindexed := indexed_of clauses returnsValue callSites hdistinct
  obtain ⟨hgoing, hleft, -⟩ := going_of_enterAll hindexed h₀
  have hleft' : w₀.left ≤ code.length := Nat.le_of_eq (hleft.trans List.size_toArray)
  obtain ⟨-, hnil, -⟩ := going_of_run hindexed hleft' hgoing hrun
  exact ⟨w, made_of_run ⟨w₀, h₀, .refl⟩ hrun, hnil, hreport⟩

end Walk

/-! ### What a report tells -/

open Classical in
/-- The depths at all that control can reach, in code order. -/
noncomputable def depthsOf (code : List (Instruction Offset)) (clauses : List Clause)
    (d : Nat → UInt16) : List (Offset × UInt16) :=
  (code.map Instruction.offset).zipIdx.filterMap fun (offset, n) =>
    if Reachable code clauses n then some (offset, d n) else none

/-- A report tells of depths: it lists them at just what control can reach, and its
largest depth is the largest one before or after an instruction there. -/
structure Tells (code : List (Instruction Offset)) (clauses : List Clause) (returnsValue : Bool)
    (callSites : CallSites) (d : Nat → UInt16) (report : StackReport) : Prop where
  depths : report.depths = depthsOf code clauses d
  before : ∀ n, Reachable code clauses n → d n ≤ report.maxDepth
  after : ∀ n i pops pushes, Reachable code clauses n → code[n]? = some i →
    Effect callSites returnsValue i pops pushes →
      d n - .ofNat pops + .ofNat pushes ≤ report.maxDepth
  attained : code ≠ [] → (∃ n, Reachable code clauses n ∧ d n = report.maxDepth) ∨
    ∃ n i pops pushes, Reachable code clauses n ∧ code[n]? = some i ∧
      Effect callSites returnsValue i pops pushes ∧
      d n - .ofNat pops + .ofNat pushes = report.maxDepth
  nothing : code = [] → report.maxDepth = 0

theorem Tells.maxDepth_le {d : Nat → UInt16} {r r' : StackReport}
    (h : Tells code clauses returnsValue callSites d r)
    (h' : Tells code clauses returnsValue callSites d r') : r.maxDepth ≤ r'.maxDepth := by
  by_cases hcode : code = []
  · rw [h.nothing hcode]
    exact UInt16.zero_le
  · rcases h.attained hcode with ⟨n, hn, heq⟩ | ⟨n, i, pops, pushes, hn, hi, heffect, heq⟩
    · rw [← heq]
      exact h'.before n hn
    · rw [← heq]
      exact h'.after n i pops pushes hn hi heffect

/-- There is one report that tells of given depths. -/
theorem Tells.unique {d : Nat → UInt16} {r r' : StackReport}
    (h : Tells code clauses returnsValue callSites d r)
    (h' : Tells code clauses returnsValue callSites d r') : r = r' := by
  have hdepths : r.depths = r'.depths := h.depths.trans h'.depths.symm
  have hmax : r.maxDepth = r'.maxDepth :=
    UInt16.le_antisymm (h.maxDepth_le h') (h'.maxDepth_le h)
  rcases r with ⟨depths, maxDepth⟩
  rcases r' with ⟨depths', maxDepth'⟩
  cases hdepths
  cases hmax
  rfl

/-- A list of instructions with what has been found for them, number by number. -/
theorem filterMap_zip_eq {depths : List (Option UInt16)} (hlength : depths.length = code.length)
    {f : Nat → Option UInt16} (hf : ∀ n < code.length, depths[n]?.getD none = f n) :
    ((code.zip depths).filterMap fun (i, depth) => depth.map (i.offset, ·)) =
      (code.map Instruction.offset).zipIdx.filterMap
        fun (offset, n) => (f n).map (offset, ·) := by
  have hmap : ((code.zip depths).map fun (i, depth) => depth.map (i.offset, ·)) =
      (code.map Instruction.offset).zipIdx.map fun (offset, n) => (f n).map (offset, ·) := by
    apply List.ext_getElem
    · simp [hlength]
    · intro n hn hn'
      have hlt : n < code.length := by simpa [hlength] using hn
      have hat := hf n hlt
      rw [List.getElem?_eq_getElem (by omega)] at hat
      simp [← hat]
  have hid := congrArg (List.filterMap id) hmap
  rwa [List.filterMap_map, List.filterMap_map] at hid

section Made

variable {d : Nat → UInt16} {w : Walk}

/-- What a walk has found when it comes to its end is closed. -/
theorem Walk.Made.closed (hdistinct : (code.map Instruction.offset).Nodup)
    (h : Walk.Made (.of code clauses returnsValue callSites) w) (hnil : w.pending = []) :
    Closed (.of code clauses returnsValue callSites)
        (Walk.Reached (.of code clauses returnsValue callSites) w) ∧
      Walk.Bounds (.of code clauses returnsValue callSites)
        (Walk.Reached (.of code clauses returnsValue callSites) w) w.deepest := by
  have hindexed := indexed_of clauses returnsValue callSites hdistinct
  obtain ⟨hgoing, hentered⟩ := h.going hindexed
  exact closed_of_going hindexed hgoing hnil hentered

/-- It stays within the depths that fit. -/
theorem Walk.Made.within_fits (hdistinct : (code.map Instruction.offset).Nodup)
    (hcomplete : Complete code clauses callSites)
    (hfits : Fits code clauses returnsValue callSites d)
    (h : Walk.Made (.of code clauses returnsValue callSites) w) {bound : UInt16}
    (hbound : Walk.Bounds (.of code clauses returnsValue callSites)
      (FoundBy code clauses d) bound) :
    Walk.Within (.of code clauses returnsValue callSites) (FoundBy code clauses d) bound w :=
  h.within (indexed_of clauses returnsValue callSites hdistinct)
    (fun _ _ _ hx hy => hx.unique hdistinct hy) (closed_of_fits hdistinct hcomplete hfits) hbound

/-- The depths found are those that fit, at what control can reach, and no others. -/
theorem Walk.Made.at_eq (hdistinct : (code.map Instruction.offset).Nodup)
    (hfits : Fits code clauses returnsValue callSites d)
    (h : Walk.Made (.of code clauses returnsValue callSites) w) (hnil : w.pending = [])
    {n : Nat} {x : UInt16} (hn : n < code.length) :
    w.at_ n = some x ↔ Reachable code clauses n ∧ d n = x := by
  obtain ⟨hclosed, -⟩ := h.closed hdistinct hnil
  have hwithin := (h.within_fits hdistinct hclosed.complete hfits
    (fun _ _ _ _ _ _ => ⟨le_lastWord _, le_lastWord _⟩)).within
  have hi := List.getElem?_eq_getElem hn
  have hi' := (Ground.getElem?_code code clauses returnsValue callSites n).trans hi
  have hin : ∀ {y}, w.at_ n = some y → Reachable code clauses n ∧ d n = y := by
    intro y hy
    obtain ⟨m, hm, hstands, heq⟩ := hwithin n _ y hi' hy
    obtain rfl := hstands.unique hdistinct ⟨_, hi, rfl⟩
    exact ⟨hm, heq⟩
  constructor
  · exact hin
  · rintro ⟨hreach, rfl⟩
    obtain ⟨y, m, hm, hy⟩ := hclosed.exists_depth hreach hi
    obtain ⟨j, hj, hoffset⟩ := (indexByOffset_eq_some_of_nodup hdistinct).mp hm
    obtain rfl := eq_of_offset_eq_of_nodup hdistinct hj hi hoffset
    rw [(hin hy).2]
    exact hy

/-- The depths before and after what control can reach are seen on the way. -/
theorem Walk.Made.le_deepest (hdistinct : (code.map Instruction.offset).Nodup)
    (hfits : Fits code clauses returnsValue callSites d)
    (h : Walk.Made (.of code clauses returnsValue callSites) w) (hnil : w.pending = [])
    {n pops pushes : Nat} {i : Instruction Offset} (hn : Reachable code clauses n)
    (hi : code[n]? = some i) (heffect : Effect callSites returnsValue i pops pushes) :
    d n ≤ w.deepest ∧ d n - .ofNat pops + .ofNat pushes ≤ w.deepest := by
  obtain ⟨-, hbounds⟩ := h.closed hdistinct hnil
  have hlt := (List.getElem?_eq_some_iff.mp hi).1
  have hreached : Walk.Reached (.of code clauses returnsValue callSites) w i.offset (d n) :=
    ⟨n, (indexByOffset_eq_some_of_nodup hdistinct).mpr ⟨i, hi, rfl⟩,
      (h.at_eq hdistinct hfits hnil hlt).mpr ⟨hn, rfl⟩⟩
  have hmem : i ∈ (Ground.of code clauses returnsValue callSites).code :=
    Ground.mem_code.mpr (List.mem_of_getElem? hi)
  exact hbounds i hmem (d n) _ hreached (hfits.passes hn hi heffect)

/-- The largest depth seen is one of them. -/
theorem Walk.Made.deepest_attained (hdistinct : (code.map Instruction.offset).Nodup)
    (hfits : Fits code clauses returnsValue callSites d)
    (h : Walk.Made (.of code clauses returnsValue callSites) w) (hnil : w.pending = [])
    (hzero : w.deepest ≠ 0) :
    (∃ n, Reachable code clauses n ∧ d n = w.deepest) ∨
      ∃ n i pops pushes, Reachable code clauses n ∧ code[n]? = some i ∧
        Effect callSites returnsValue i pops pushes ∧
        d n - .ofNat pops + .ofNat pushes = w.deepest := by
  by_contra hnot
  obtain ⟨hbefore, hafter⟩ := not_or.mp hnot
  push Not at hbefore hafter
  obtain ⟨hclosed, -⟩ := h.closed hdistinct hnil
  -- the number below the largest depth would be a bound as well
  have hbound : Walk.Bounds (.of code clauses returnsValue callSites)
      (FoundBy code clauses d) (w.deepest - 1) := by
    rintro i hi depth after ⟨n, hn, hstands, rfl⟩ hpasses
    obtain ⟨m, hm⟩ := List.mem_iff_getElem?.mp (Ground.mem_code.mp hi)
    obtain rfl := hstands.unique hdistinct ⟨i, hm, rfl⟩
    obtain ⟨pops, pushes, heffect⟩ : ∃ pops pushes, Effect callSites returnsValue i pops pushes :=
      exists_effect (hclosed.complete.known n i hn hm)
    obtain ⟨-, rfl⟩ := hpasses.eq_of_effect heffect
    obtain ⟨hle, hle'⟩ := h.le_deepest hdistinct hfits hnil hn hm heffect
    exact ⟨le_pred_of_ne hzero hle (hbefore n hn),
      le_pred_of_ne hzero hle' (hafter n i pops pushes hn hm heffect)⟩
  have hle := (h.within_fits hdistinct hclosed.complete hfits hbound).deepest
  rw [UInt16.le_iff_toNat_le] at hle
  obtain ⟨hpred, hpos⟩ := toNat_pred hzero
  omega

/-- A walk that has come to its end tells of the depths that fit. -/
theorem Walk.Made.tells (hdistinct : (code.map Instruction.offset).Nodup)
    (hfits : Fits code clauses returnsValue callSites d)
    (h : Walk.Made (.of code clauses returnsValue callSites) w) (hnil : w.pending = []) :
    Tells code clauses returnsValue callSites d (w.report code) := by
  obtain ⟨hclosed, -⟩ := h.closed hdistinct hnil
  constructor
  case depths =>
    classical
    have hsize : w.depths.toList.length = code.length := by
      have hsize := (h.going (indexed_of clauses returnsValue callSites hdistinct)).1.size
      simpa [Ground.of] using hsize
    -- what is reached holds its depth, what is not holds none
    have hat : ∀ n < code.length, w.depths.toList[n]?.getD none =
        if Reachable code clauses n then some (d n) else none := by
      intro n hlt
      rw [Array.getElem?_toList]
      show w.at_ n = _
      by_cases hn : Reachable code clauses n
      · rw [if_pos hn]
        exact (h.at_eq hdistinct hfits hnil hlt).mpr ⟨hn, rfl⟩
      · rw [if_neg hn, Option.eq_none_iff_forall_ne_some]
        exact fun x hx => hn ((h.at_eq hdistinct hfits hnil hlt).mp hx).1
    refine (filterMap_zip_eq hsize hat).trans ?_
    unfold depthsOf
    congr 1
    funext ⟨offset, n⟩
    by_cases hn : Reachable code clauses n
    · simp [hn]
    · simp [hn]
  case before =>
    intro n hn
    obtain ⟨i, hi⟩ := hn.exists_instruction
    obtain ⟨pops, pushes, heffect⟩ : ∃ pops pushes, Effect callSites returnsValue i pops pushes :=
      exists_effect (hclosed.complete.known n i hn hi)
    exact (h.le_deepest hdistinct hfits hnil hn hi heffect).1
  case after =>
    intro n i pops pushes hn hi heffect
    exact (h.le_deepest hdistinct hfits hnil hn hi heffect).2
  case attained =>
    intro hcode
    -- nothing is deeper than zero, or the deepest was found at some instruction
    by_cases hzero : w.deepest = 0
    · have hpos := List.length_pos_iff.mpr hcode
      exact .inl ⟨0, .entry hpos, (hfits.entry hpos).trans hzero.symm⟩
    · exact h.deepest_attained hdistinct hfits hnil hzero
  case nothing =>
    rintro rfl
    by_contra hzero
    rcases h.deepest_attained hdistinct hfits hnil hzero with ⟨n, hn, -⟩ | ⟨n, i, _, _, hn, -⟩
    all_goals
      obtain ⟨i, hi⟩ := hn.exists_instruction
      cases hi

end Made

/-! ### What matters to the check -/

/-- Code and clauses that look the same to control: the same clauses in whatever order, and
the same instructions wherever control can reach, each at its position. -/
structure SameToControl (code code' : List (Instruction Offset)) (clauses clauses' : List Clause) :
    Prop where
  offsets : code'.map Instruction.offset = code.map Instruction.offset
  mem_clauses : ∀ c, c ∈ clauses' ↔ c ∈ clauses
  instructions : ∀ n, Reachable code clauses n → code'[n]? = code[n]?

section Same

variable {code' : List (Instruction Offset)} {clauses' : List Clause}
  (h : SameToControl code code' clauses clauses')
include h

theorem SameToControl.standsAt_iff {n : Nat} {offset : Offset} :
    StandsAt code' n offset ↔ StandsAt code n offset := by
  rw [Check.standsAt_iff, Check.standsAt_iff, h.offsets]

theorem SameToControl.reachable_iff {n : Nat} :
    Reachable code' clauses' n ↔ Reachable code clauses n := by
  have hlength : code'.length = code.length := by
    simpa using congrArg List.length h.offsets
  constructor
  · intro hn
    induction hn with
    | entry hpos => exact .entry (hlength ▸ hpos)
    | handler hc hn => exact .handler ((h.mem_clauses _).mp hc) (h.standsAt_iff.mp hn)
    | filter hc hf hn => exact .filter ((h.mem_clauses _).mp hc) hf (h.standsAt_iff.mp hn)
    | step _ hi ht hm ih => exact .step ih (h.instructions _ ih ▸ hi) ht (h.standsAt_iff.mp hm)
  · intro hn
    induction hn with
    | entry hpos => exact .entry (hlength.symm ▸ hpos)
    | handler hc hn => exact .handler ((h.mem_clauses _).mpr hc) (h.standsAt_iff.mpr hn)
    | filter hc hf hn => exact .filter ((h.mem_clauses _).mpr hc) hf (h.standsAt_iff.mpr hn)
    | step hn hi ht hm ih =>
      exact .step ih ((h.instructions _ hn).trans hi) ht (h.standsAt_iff.mpr hm)

protected theorem SameToControl.symm : SameToControl code' code clauses' clauses where
  offsets := h.offsets.symm
  mem_clauses c := (h.mem_clauses c).symm
  instructions n hn := (h.instructions n (h.reachable_iff.mp hn)).symm

/-- What control reaches in one is what it reaches in the other. -/
theorem SameToControl.reached {n : Nat} {i : Instruction Offset}
    (hn : Reachable code' clauses' n) (hi : code'[n]? = some i) :
    Reachable code clauses n ∧ code[n]? = some i := by
  have hn' := h.reachable_iff.mp hn
  exact ⟨hn', (h.instructions n hn').symm.trans hi⟩

theorem SameToControl.complete (hcomplete : Complete code clauses callSites) :
    Complete code' clauses' callSites := by
  constructor
  case needed =>
    intro offset hneeded
    have hneeded' : Needed code clauses offset := by
      cases hneeded with
      | handler hc => exact .handler ((h.mem_clauses _).mp hc)
      | filter hc hf => exact .filter ((h.mem_clauses _).mp hc) hf
      | successor hn hi ht =>
        obtain ⟨hn', hi'⟩ := h.reached hn hi
        exact .successor hn' hi' ht
    exact (hcomplete.needed offset hneeded').imp fun _ => h.standsAt_iff.mpr
  case known =>
    intro n i hn hi hcalls
    obtain ⟨hn', hi'⟩ := h.reached hn hi
    exact hcomplete.known n i hn' hi' hcalls

theorem SameToControl.fits {d : Nat → UInt16} (hfits : Fits code clauses returnsValue callSites d) :
    Fits code' clauses' returnsValue callSites d := by
  constructor
  case entry =>
    intro hpos
    have hlength : code'.length = code.length := by
      simpa using congrArg List.length h.offsets
    exact hfits.entry (hlength ▸ hpos)
  case handler =>
    exact fun c hc n hn => hfits.handler c ((h.mem_clauses c).mp hc) n (h.standsAt_iff.mp hn)
  case filter =>
    exact fun c hc f hf n hn =>
      hfits.filter c ((h.mem_clauses c).mp hc) f hf n (h.standsAt_iff.mp hn)
  case enough =>
    intro n i pops pushes hn hi heffect
    obtain ⟨hn', hi'⟩ := h.reached hn hi
    exact hfits.enough n i pops pushes hn' hi' heffect
  case edge =>
    intro n i pops pushes hn hi heffect t ht m hm
    obtain ⟨hn', hi'⟩ := h.reached hn hi
    exact hfits.edge n i pops pushes hn' hi' heffect t ht m (h.standsAt_iff.mp hm)
  case entered =>
    intro n i hn hi c hc htry
    obtain ⟨hn', hi'⟩ := h.reached hn hi
    exact hfits.entered n i hn' hi' c ((h.mem_clauses c).mp hc) htry
  case returned =>
    intro n i hn hi hret
    obtain ⟨hn', hi'⟩ := h.reached hn hi
    exact hfits.returned n i hn' hi' hret

theorem SameToControl.tells {d : Nat → UInt16} {report : StackReport}
    (htells : Tells code clauses returnsValue callSites d report) :
    Tells code' clauses' returnsValue callSites d report := by
  have hnil : code' = [] ↔ code = [] := by
    rw [← List.map_eq_nil_iff (f := Instruction.offset), h.offsets, List.map_eq_nil_iff]
  constructor
  case depths =>
    have hreachable : Reachable code' clauses' = Reachable code clauses :=
      funext fun n => propext h.reachable_iff
    rw [htells.depths, depthsOf, depthsOf, hreachable, h.offsets]
  case before => exact fun n hn => htells.before n (h.reachable_iff.mp hn)
  case after =>
    intro n i pops pushes hn hi heffect
    obtain ⟨hn', hi'⟩ := h.reached hn hi
    exact htells.after n i pops pushes hn' hi' heffect
  case attained =>
    intro hcode
    rcases htells.attained (fun hempty => hcode (hnil.mpr hempty)) with
      ⟨n, hn, heq⟩ | ⟨n, i, pops, pushes, hn, hi, heffect, heq⟩
    · exact .inl ⟨n, h.reachable_iff.mpr hn, heq⟩
    · exact .inr ⟨n, i, pops, pushes, h.reachable_iff.mpr hn, (h.instructions n hn).trans hi,
        heffect, heq⟩
  case nothing => exact fun hempty => htells.nothing (hnil.mp hempty)

end Same

/-! ### The check solves the equations -/

/-- The check accepts what the equations have a solution for. -/
theorem exists_report (hdistinct : (code.map Instruction.offset).Nodup)
    (hcomplete : Complete code clauses callSites) {d : Nat → UInt16}
    (hfits : Fits code clauses returnsValue callSites d) :
    ∃ report, simulateStack code clauses returnsValue callSites = .ok report := by
  have hclosed := closed_of_fits hdistinct hcomplete hfits
  obtain ⟨report, h, -⟩ := simulateStack_within hdistinct hclosed
    (fun _ _ _ hx hy => hx.unique hdistinct hy)
    (fun _ _ _ _ _ _ => ⟨le_lastWord _, le_lastWord _⟩)
  exact ⟨report, h⟩

/-- What the check accepts solves the equations. -/
theorem solved_of_simulateStack (hdistinct : (code.map Instruction.offset).Nodup)
    {report : StackReport}
    (h : simulateStack code clauses returnsValue callSites = .ok report) :
    Complete code clauses callSites ∧ ∃ d, Fits code clauses returnsValue callSites d := by
  obtain ⟨hclosed, hfun, -⟩ := closed_of_simulateStack hdistinct h
  exact ⟨hclosed.complete, hclosed.exists_fits hfun⟩

/-- The report tells of the solution. -/
theorem tells_of_simulateStack (hdistinct : (code.map Instruction.offset).Nodup)
    {report : StackReport} {d : Nat → UInt16}
    (h : simulateStack code clauses returnsValue callSites = .ok report)
    (hfits : Fits code clauses returnsValue callSites d) :
    Tells code clauses returnsValue callSites d report := by
  obtain ⟨w, hmade, hnil, rfl⟩ := Walk.exists_made hdistinct h
  exact hmade.tells hdistinct hfits hnil

theorem simulateStack_of_same {code' : List (Instruction Offset)} {clauses' : List Clause}
    (hdistinct : (code.map Instruction.offset).Nodup)
    (hsame : SameToControl code code' clauses clauses') {report : StackReport}
    (h : simulateStack code clauses returnsValue callSites = .ok report) :
    simulateStack code' clauses' returnsValue callSites = .ok report := by
  have hdistinct' : (code'.map Instruction.offset).Nodup := hsame.offsets ▸ hdistinct
  obtain ⟨hcomplete, d, hfits⟩ := solved_of_simulateStack hdistinct h
  obtain ⟨report', h'⟩ := exists_report hdistinct' (hsame.complete hcomplete) (hsame.fits hfits)
  have htells := hsame.tells (tells_of_simulateStack hdistinct h hfits)
  have htells' := tells_of_simulateStack hdistinct' h' (hsame.fits hfits)
  rw [h', htells.unique htells']

/-- Neither the order of the clauses nor what control cannot reach matters. -/
theorem simulateStack_congr {code' : List (Instruction Offset)} {clauses' : List Clause}
    (hdistinct : (code.map Instruction.offset).Nodup)
    (hsame : SameToControl code code' clauses clauses') {report : StackReport} :
    simulateStack code' clauses' returnsValue callSites = .ok report ↔
      simulateStack code clauses returnsValue callSites = .ok report :=
  ⟨simulateStack_of_same (hsame.offsets ▸ hdistinct) hsame.symm,
    simulateStack_of_same hdistinct hsame⟩

/-- Every walk that comes to its end has found the same, and the check finds that too. -/
theorem simulateStack_of_made (hdistinct : (code.map Instruction.offset).Nodup) {w : Walk}
    (h : Walk.Made (.of code clauses returnsValue callSites) w) (hnil : w.pending = []) :
    simulateStack code clauses returnsValue callSites = .ok (w.report code) := by
  obtain ⟨hclosed, -⟩ := h.closed hdistinct hnil
  have hfun : ∀ o x y, Walk.Reached (.of code clauses returnsValue callSites) w o x →
      Walk.Reached (.of code clauses returnsValue callSites) w o y → x = y := by
    rintro o x y ⟨n, hn, hx⟩ ⟨m, hm, hy⟩
    obtain rfl := Option.some.inj (hn.symm.trans hm)
    exact Option.some.inj (hx.symm.trans hy)
  obtain ⟨d, hfits⟩ := hclosed.exists_fits hfun
  obtain ⟨report, hreport⟩ := exists_report hdistinct hclosed.complete hfits
  have htells := tells_of_simulateStack hdistinct hreport hfits
  rw [hreport, htells.unique (h.tells hdistinct hfits hnil)]

/-- If some walk gets stuck the check rejects, though it may go another way. -/
theorem simulateStack_ne_ok_of_stuck (hdistinct : (code.map Instruction.offset).Nodup) {w : Walk}
    (h : Walk.Made (.of code clauses returnsValue callSites) w)
    (hstuck : Walk.Stuck (.of code clauses returnsValue callSites) w) (report : StackReport) :
    simulateStack code clauses returnsValue callSites ≠ .ok report := by
  intro hok
  obtain ⟨hcomplete, d, hfits⟩ := solved_of_simulateStack hdistinct hok
  exact h.not_stuck (indexed_of clauses returnsValue callSites hdistinct)
    (fun _ _ _ hx hy => hx.unique hdistinct hy) (closed_of_fits hdistinct hcomplete hfits)
    (fun _ _ _ _ _ _ => ⟨le_lastWord _, le_lastWord _⟩) hstuck

/-- The check of the stack computes the depths at all that control can reach, exactly.
It accepts if and only if every position that control needs has an instruction, every
call that control can reach is known, and there are depths that fit; then its report tells
of these.  The verdict and the report do not depend on the order of the clauses, on
instructions that control cannot reach, or on the order in which instructions are passed:
whichever order comes to an end gives this report, and if any gets stuck there is none. -/
theorem stack_depths_exact (hdistinct : (code.map Instruction.offset).Nodup)
    (clauses : List Clause) (returnsValue : Bool) (callSites : CallSites) :
    ((∃ report, simulateStack code clauses returnsValue callSites = .ok report) ↔
        Complete code clauses callSites ∧ ∃ d, Fits code clauses returnsValue callSites d) ∧
      (∀ report d, simulateStack code clauses returnsValue callSites = .ok report →
        Fits code clauses returnsValue callSites d →
          Tells code clauses returnsValue callSites d report) ∧
      (∀ code' clauses' report, SameToControl code code' clauses clauses' →
        (simulateStack code' clauses' returnsValue callSites = .ok report ↔
          simulateStack code clauses returnsValue callSites = .ok report)) ∧
      ∀ w, Walk.Made (.of code clauses returnsValue callSites) w →
        (w.pending = [] →
          simulateStack code clauses returnsValue callSites = .ok (w.report code)) ∧
        (Walk.Stuck (.of code clauses returnsValue callSites) w →
          ∀ report, simulateStack code clauses returnsValue callSites ≠ .ok report) := by
  refine ⟨⟨?_, ?_⟩, ?_, ?_, ?_⟩
  · rintro ⟨report, h⟩
    exact solved_of_simulateStack hdistinct h
  · rintro ⟨hcomplete, d, hfits⟩
    exact exists_report hdistinct hcomplete hfits
  · intro report d h hfits
    exact tells_of_simulateStack hdistinct h hfits
  · intro code' clauses' report hsame
    exact simulateStack_congr hdistinct hsame
  · intro w hmade
    exact ⟨simulateStack_of_made hdistinct hmade, simulateStack_ne_ok_of_stuck hdistinct hmade⟩

/-! ### A loop in a protected range -/

/-- Call sites of a method that calls nothing. -/
def noCallSites : CallSites := fun token => .error (.tokenNotFound token)

/-- A loop that loads zero until it is not zero, in a protected range with a finally
handler.  Behind the return stands an instruction that control does not reach. -/
def loopCode : List (Instruction Offset) :=
  [⟨0, ⟨0x16⟩, .none⟩, ⟨1, ⟨0x2D⟩, .target 0⟩, ⟨3, Opcode.leaveShort, .target 6⟩,
    ⟨5, Opcode.endfinally, .none⟩, ⟨6, Opcode.ret, .none⟩, ⟨7, ⟨0x26⟩, .none⟩]

/-- The clause of its handler. -/
def loopClauses : List Clause := [.finally_ 0 5 5 1]

theorem stack_depths_exact_loopCode :
    (loopCode.map Instruction.offset).Nodup ∧
      simulateStack loopCode loopClauses false noCallSites =
        .ok ⟨[(0, 0), (1, 1), (3, 0), (5, 0), (6, 0)], 1⟩ ∧
      Complete loopCode loopClauses noCallSites ∧
      ∃ d, Fits loopCode loopClauses false noCallSites d ∧
        depthsOf loopCode loopClauses d = [(0, 0), (1, 1), (3, 0), (5, 0), (6, 0)] := by
  have hdistinct : (loopCode.map Instruction.offset).Nodup := by decide
  have hreport : simulateStack loopCode loopClauses false noCallSites =
      .ok ⟨[(0, 0), (1, 1), (3, 0), (5, 0), (6, 0)], 1⟩ := by cbv
  obtain ⟨hiff, htells, -⟩ := stack_depths_exact hdistinct loopClauses false noCallSites
  obtain ⟨hcomplete, d, hfits⟩ := hiff.mp ⟨_, hreport⟩
  exact ⟨hdistinct, hreport, hcomplete, d, hfits, (htells _ d hreport hfits).depths.symm⟩

end Check

end CilProbe
