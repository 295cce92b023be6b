/-
CilProbe/Proofs/Check/Stack.lean

What the walk through code finds.  Call a relation between positions and depths
closed (`Closed`) if it has everything that control enters from outside and, with
each instruction, everything that control can reach from there at the depth it is
left with.  The walk ends with a closed relation (`closed_of_simulateStack`), and it
comes through and stays within any closed relation that gives each position at most
one depth (`simulateStack_within`); so what it finds is the least one, in whatever
order it goes.
-/
import CilProbe.Check.Stack
import CilProbe.Proofs.Check.Structure

namespace CilProbe

/-! ### The larger of two depths -/

theorem left_le_max (a b : UInt16) : a ≤ max a b := by
  show a ≤ if a ≤ b then b else a
  split
  · assumption
  · exact UInt16.le_refl a

theorem right_le_max (a b : UInt16) : b ≤ max a b := by
  show b ≤ if a ≤ b then b else a
  split
  · exact UInt16.le_refl b
  · next h => exact UInt16.le_of_lt (UInt16.not_le.mp h)

theorem max_le_of {a b c : UInt16} (ha : a ≤ c) (hb : b ≤ c) : max a b ≤ c := by
  show (if a ≤ b then b else a) ≤ c
  split <;> assumption

namespace Check

/-! ### Closed relations -/

/-- Code as the walk sees it. -/
def Ground.of (code : List (Instruction Offset)) (clauses : List Clause) (returnsValue : Bool)
    (callSites : CallSites) : Ground :=
  ⟨code.toArray, indexByOffset code, clauses, returnsValue, callSites⟩

theorem Ground.mem_code {code : List (Instruction Offset)} {clauses : List Clause}
    {returnsValue : Bool} {callSites : CallSites} {i : Instruction Offset} :
    i ∈ (Ground.of code clauses returnsValue callSites).code ↔ i ∈ code :=
  List.mem_toArray

theorem Ground.getElem?_code (code : List (Instruction Offset)) (clauses : List Clause)
    (returnsValue : Bool) (callSites : CallSites) (n : Nat) :
    (Ground.of code clauses returnsValue callSites).code[n]? = code[n]? :=
  List.getElem?_toArray

/-- An instruction can be passed with `depth` values on the stack, and leaves `after`. -/
structure Passes (g : Ground) (i : Instruction Offset) (depth after : UInt16) : Prop where
  entered : depth = 0 ∨ ∀ c ∈ g.clauses, c.tryOffset ≠ i.offset
  effect : ∃ e, stackEffect g.callSites g.returnsValue i = .ok e ∧ e.pops ≤ depth ∧
    after = depth - e.pops + e.pushes
  returned : i.opcode.info.flow = .ret → after = 0

/-- A position of an instruction. -/
def Ground.Has (g : Ground) (offset : Offset) : Prop := ∃ i ∈ g.code, i.offset = offset

/-- A relation between positions and depths that no step leads out of. -/
structure Closed (g : Ground) (R : Offset → UInt16 → Prop) : Prop where
  start : ∀ i, g.code[0]? = some i → R i.offset 0
  handler : ∀ c ∈ g.clauses, g.Has c.handlerOffset ∧
    R c.handlerOffset (if c.isFinallyLike then 0 else 1)
  filter : ∀ c ∈ g.clauses, ∀ f ∈ c.filterOffset?, g.Has f ∧ R f 1
  step : ∀ i ∈ g.code, ∀ depth, R i.offset depth → ∃ after, Passes g i depth after ∧
    ∀ t ∈ successors i, g.Has t ∧ R t (depthAfter i after)

theorem Passes.unique {g : Ground} {i : Instruction Offset} {depth after after' : UInt16}
    (h : Passes g i depth after) (h' : Passes g i depth after') : after = after' := by
  obtain ⟨e, he, -, rfl⟩ := h.effect
  obtain ⟨e', he', -, rfl⟩ := h'.effect
  rw [he] at he'
  cases he'
  rfl

namespace Walk

/-! ### Walks -/

/-- The depth found for the instruction with the given number. -/
def at_ (w : Walk) (n : Nat) : Option UInt16 := w.depths[n]?.getD none

/-- How many instructions have still to be passed, or to be reached. -/
def left (w : Walk) : Nat := w.depths.countP Option.isNone + w.pending.length

/-- A position has been reached with a depth. -/
def Reached (g : Ground) (w : Walk) (offset : Offset) (depth : UInt16) : Prop :=
  ∃ n, g.index[offset]? = some n ∧ w.at_ n = some depth

/-- The index of the ground finds its instructions. -/
def Indexed (g : Ground) : Prop :=
  ∀ (offset : Offset) (n : Nat),
    g.index[offset]? = some n ↔ ∃ i, g.code[n]? = some i ∧ i.offset = offset

/-- More has been reached; nothing was passed. -/
structure Grows (w w' : Walk) : Prop where
  size : w'.depths.size = w.depths.size
  depths : ∀ n d, w.at_ n = some d → w'.at_ n = some d
  pending : ∀ n ∈ w.pending, n ∈ w'.pending
  deepest : w'.deepest = w.deepest
  left : w'.left = w.left

protected theorem Grows.refl (w : Walk) : Grows w w := ⟨rfl, fun _ _ h => h, fun _ h => h, rfl, rfl⟩

protected theorem Grows.trans {w w' w'' : Walk} (h : Grows w w') (h' : Grows w' w'') :
    Grows w w'' where
  size := h'.size.trans h.size
  depths n d hn := h'.depths n d (h.depths n d hn)
  pending n hn := h'.pending n (h.pending n hn)
  deepest := h'.deepest.trans h.deepest
  left := h'.left.trans h.left

theorem Reached.mono {g : Ground} {w w' : Walk} {offset : Offset} {depth : UInt16}
    (h : Reached g w offset depth) (hw : Grows w w') : Reached g w' offset depth := by
  obtain ⟨n, hn, hd⟩ := h
  exact ⟨n, hn, hw.depths n depth hd⟩

/-- An instruction has been passed, with all that control can reach from there
reached. -/
def Settled (g : Ground) (w : Walk) (n : Nat) : Prop :=
  ∀ i depth, g.code[n]? = some i → w.at_ n = some depth → ∃ after, Passes g i depth after ∧
    (∀ t ∈ successors i, Reached g w t (depthAfter i after)) ∧ depth ≤ w.deepest ∧
    after ≤ w.deepest

/-- What holds while walking: what has been reached is pending, or passed, or among
those set aside (`Aside`). -/
structure Going (g : Ground) (Aside : Nat → Prop) (w : Walk) : Prop where
  size : w.depths.size = g.code.size
  pending : ∀ n ∈ w.pending, ∃ d, w.at_ n = some d
  settled : ∀ n d, w.at_ n = some d → n ∈ w.pending ∨ Aside n ∨ Settled g w n

theorem lt_of_at_ {w : Walk} {n : Nat} {d : UInt16} (h : w.at_ n = some d) :
    n < w.depths.size := by
  by_contra hn
  rw [at_, Array.getElem?_eq_none (Nat.le_of_not_lt hn)] at h
  cases h

theorem Settled.mono {g : Ground} {w w' : Walk} {n : Nat} {d : UInt16} (h : Settled g w n)
    (hd : w.at_ n = some d) (hw : Grows w w') : Settled g w' n := by
  intro i depth hi hdepth
  have heq := (hw.depths n d hd).symm.trans hdepth
  obtain ⟨after, hpasses, hnext, hle, hle'⟩ := h i depth hi (hd.trans heq)
  refine ⟨after, hpasses, fun t ht => (hnext t ht).mono hw, ?_, ?_⟩
  · rwa [hw.deepest]
  · rwa [hw.deepest]

section Enter

variable {g : Ground} {w w' : Walk} {source offset : Offset} {depth : UInt16}

/-- The walk with one more instruction reached. -/
def reach (w : Walk) (n : Nat) (depth : UInt16) : Walk :=
  { w with depths := w.depths.setIfInBounds n (some depth), pending := n :: w.pending }

theorem at_reach {n : Nat} (hn : n < w.depths.size) (m : Nat) :
    (w.reach n depth).at_ m = if n = m then some depth else w.at_ m := by
  unfold reach at_
  simp only [Array.getElem?_setIfInBounds]
  split
  · next heq =>
    subst heq
    rfl
  · rfl

theorem enter_eq_ok :
    enter g source w offset depth = .ok w' ↔
      ∃ n, g.index[offset]? = some n ∧
        (w.at_ n = some depth ∧ w' = w ∨ w.at_ n = none ∧ w' = w.reach n depth) := by
  unfold enter
  rcases hindex : g.index[offset]? with - | n
  · simp [reject]
  · simp only [Option.some.injEq, exists_eq_left', show w.depths[n]?.getD none = w.at_ n from rfl]
    rcases hat : w.at_ n with - | existing
    · constructor
      · intro h
        cases h
        exact .inr ⟨rfl, rfl⟩
      · rintro (⟨h, -⟩ | ⟨-, rfl⟩)
        · cases h
        · rfl
    · simp only
      split
      · next heq =>
        subst heq
        simp [eq_comm]
      · next hne => simp [reject, hne]

/-- What is reached for the first time is pending from then on, and nothing else changes. -/
theorem grows_reach {n : Nat} (hlt : n < w.depths.size) (hat : w.at_ n = none) (depth : UInt16) :
    Grows w (w.reach n depth) := by
  have hnone : w.depths[n] = none := by
    rw [at_, Array.getElem?_eq_getElem hlt] at hat
    exact hat
  constructor
  case size => exact Array.size_setIfInBounds
  case depths =>
    intro m d hm
    rw [at_reach hlt, if_neg, hm]
    rintro rfl
    rw [hat] at hm
    cases hm
  case pending => exact fun m hm => List.mem_cons_of_mem n hm
  case deepest => rfl
  case left =>
    -- one instruction less is without a depth, and one more is pending
    show (w.depths.setIfInBounds n (some depth)).countP _ + (n :: w.pending).length = _
    have hpos : 0 < w.depths.countP Option.isNone :=
      Array.countP_pos_iff.mpr ⟨none, hnone ▸ Array.getElem_mem hlt, rfl⟩
    rw [Array.setIfInBounds_def, dif_pos hlt, Array.countP_set, hnone]
    simp only [Option.isNone_none, if_true, Option.isNone_some, Bool.false_eq_true, if_false,
      List.length_cons]
    unfold left
    omega

/-- Reaching a position sets nothing back. -/
theorem going_of_enter {Aside : Nat → Prop} (hindexed : Indexed g) (hw : Going g Aside w)
    (h : enter g source w offset depth = .ok w') :
    Going g Aside w' ∧ Grows w w' ∧ Reached g w' offset depth := by
  obtain ⟨n, hn, ⟨hat, rfl⟩ | ⟨hat, rfl⟩⟩ := enter_eq_ok.mp h
  · exact ⟨hw, .refl w', n, hn, hat⟩
  · obtain ⟨i, hi, -⟩ := (hindexed offset n).mp hn
    have hlt : n < w.depths.size := by
      rw [hw.size]
      exact (Array.getElem?_eq_some_iff.mp hi).1
    have hgrows := grows_reach hlt hat depth
    refine ⟨⟨hgrows.size.trans hw.size, ?_, ?_⟩, hgrows, n, hn, by rw [at_reach hlt, if_pos rfl]⟩
    · intro m hm
      rcases List.mem_cons.mp hm with rfl | hm
      · exact ⟨depth, by rw [at_reach hlt, if_pos rfl]⟩
      · obtain ⟨d, hd⟩ := hw.pending m hm
        exact ⟨d, hgrows.depths m d hd⟩
    · -- the new depth is pending, the others are what they were
      intro m d hm
      by_cases heq : n = m
      · subst heq
        exact .inl List.mem_cons_self
      · rw [at_reach hlt, if_neg heq] at hm
        rcases hw.settled m d hm with hpending | haside | hsettled
        · exact .inl (hgrows.pending m hpending)
        · exact .inr (.inl haside)
        · exact .inr (.inr (hsettled.mono hm hgrows))

/-- Reaching several positions, one after the other. -/
theorem going_of_enters {Aside : Nat → Prop} (hindexed : Indexed g) {targets : List Offset}
    (hw : Going g Aside w)
    (h : targets.foldlM (fun w target => enter g source w target depth) w = .ok w') :
    Going g Aside w' ∧ Grows w w' ∧ ∀ t ∈ targets, Reached g w' t depth := by
  induction targets generalizing w with
  | nil =>
    obtain rfl := pure_eq_ok.mp h
    exact ⟨hw, .refl w, by simp⟩
  | cons t targets ih =>
    rw [List.foldlM_cons] at h
    obtain ⟨w₁, hw₁, h⟩ := bind_eq_ok.mp h
    obtain ⟨hgoing, hgrows, hreached⟩ := going_of_enter hindexed hw hw₁
    obtain ⟨hgoing', hgrows', hall⟩ := ih hgoing h
    exact ⟨hgoing', hgrows.trans hgrows',
      List.forall_mem_cons.mpr ⟨hreached.mono hgrows', hall⟩⟩

end Enter

section Run

variable {g : Ground} {w w' : Walk}

theorem depth_eq_zero_or {depth : UInt16} {i : Instruction Offset} :
    (depth == 0 || !g.clauses.any (·.tryOffset == i.offset)) = true ↔
      depth = 0 ∨ ∀ c ∈ g.clauses, c.tryOffset ≠ i.offset := by
  simp

/-- Passing an instruction, which can be passed, reaches what control can reach from
there. -/
theorem pass_eq_ok {i : Instruction Offset} {depth : UInt16} :
    pass g w i depth = .ok w' ↔ ∃ after, Passes g i depth after ∧
      (successors i).foldlM (fun w target => enter g i.offset w target (depthAfter i after))
        { w with deepest := max (max w.deepest after) depth } = .ok w' := by
  unfold pass
  rw [seq_eq_ok, require_eq_ok, depth_eq_zero_or, bind_eq_ok]
  simp only [seq_eq_ok, require_eq_ok, decide_eq_true_eq, Bool.or_eq_true, bne_iff_ne,
    beq_iff_eq]
  constructor
  · rintro ⟨hentered, e, he, hpops, hreturned, h⟩
    exact ⟨_, ⟨hentered, ⟨e, he, hpops, rfl⟩, fun hret =>
      hreturned.resolve_left fun hne => hne hret⟩, h⟩
  · rintro ⟨_, ⟨hentered, ⟨e, he, hpops, rfl⟩, hreturned⟩, h⟩
    exact ⟨hentered, e, he, hpops, Classical.or_iff_not_imp_left.mpr fun hret =>
      hreturned (Classical.not_not.mp hret), h⟩

/-- Passing an instruction that was set aside. -/
theorem going_of_pass (hindexed : Indexed g) {n : Nat} {i : Instruction Offset} {depth : UInt16}
    (hi : g.code[n]? = some i) (hdepth : w.at_ n = some depth) (hw : Going g (· = n) w)
    (h : pass g w i depth = .ok w') :
    Going g (fun _ => False) w' ∧ w'.left = w.left ∧
      (∀ n d, w.at_ n = some d → w'.at_ n = some d) := by
  obtain ⟨after, hpasses, h⟩ := pass_eq_ok.mp h
  set w₁ : Walk := { w with deepest := max (max w.deepest after) depth }
  have hle : w.deepest ≤ w₁.deepest ∧ after ≤ w₁.deepest ∧ depth ≤ w₁.deepest :=
    ⟨UInt16.le_trans (left_le_max _ _) (left_le_max _ _),
      UInt16.le_trans (right_le_max _ _) (left_le_max _ _), right_le_max _ _⟩
  have hw₁ : Going g (· = n) w₁ := by
    refine ⟨hw.size, hw.pending, fun m d hm => (hw.settled m d hm).imp_right fun h => ?_⟩
    refine h.imp_right fun hsettled i' depth' hi' hdepth' => ?_
    obtain ⟨after', hpasses', hnext, hle₁, hle₂⟩ := hsettled i' depth' hi' hdepth'
    exact ⟨after', hpasses', hnext, UInt16.le_trans hle₁ hle.1, UInt16.le_trans hle₂ hle.1⟩
  obtain ⟨hgoing, hgrows, hreached⟩ := going_of_enters hindexed hw₁ h
  -- only the instruction set aside is settled anew
  refine ⟨⟨hgoing.size, hgoing.pending, fun m d hm => ?_⟩, hgrows.left, hgrows.depths⟩
  rcases hgoing.settled m d hm with hpending | rfl | hsettled
  · exact .inl hpending
  · refine .inr (.inr fun i' depth' hi' hdepth' => ?_)
    obtain rfl := Option.some.inj (hi.symm.trans hi')
    obtain rfl := Option.some.inj ((hgrows.depths m depth hdepth).symm.trans hdepth')
    rw [hgrows.deepest]
    exact ⟨after, hpasses, hreached, hle.2.2, hle.2.1⟩
  · exact .inr (.inr hsettled)

/-- Taking a pending instruction, whichever it is, sets it aside. -/
theorem going_tail {n : Nat} {pending : List Nat} (hp : w.pending.Perm (n :: pending))
    (hw : Going g (fun _ => False) w) : Going g (· = n) { w with pending } := by
  refine ⟨hw.size, fun m hm => hw.pending m ?_, fun m d hm => ?_⟩
  · exact hp.mem_iff.mpr (List.mem_cons_of_mem n hm)
  · rcases hw.settled m d hm with hpending | hfalse | hsettled
    · rcases List.mem_cons.mp (hp.mem_iff.mp hpending) with rfl | hpending
      · exact .inr (.inl rfl)
      · exact .inl hpending
    · exact hfalse.elim
    · exact .inr (.inr hsettled)

/-- A run with as many steps as are left passes everything that it reaches. -/
theorem going_of_run (hindexed : Indexed g) {count : Nat} (hcount : w.left ≤ count)
    (hw : Going g (fun _ => False) w) (h : run g count w = .ok w') :
    Going g (fun _ => False) w' ∧ w'.pending = [] ∧
      (∀ n d, w.at_ n = some d → w'.at_ n = some d) := by
  induction count generalizing w with
  | zero =>
    obtain rfl := Except.ok.inj h
    refine ⟨hw, ?_, fun _ _ h => h⟩
    unfold left at hcount
    exact List.eq_nil_of_length_eq_zero (by omega)
  | succ count ih =>
    unfold run at h
    rcases hp : w.pending with - | ⟨n, pending⟩
    · simp only [hp] at h
      obtain rfl := Except.ok.inj h
      exact ⟨hw, hp, fun _ _ h => h⟩
    · simp only [hp] at h
      obtain ⟨depth, hdepth⟩ := hw.pending n (by rw [hp]; exact List.mem_cons_self)
      have hlt := lt_of_at_ hdepth
      rw [hw.size] at hlt
      have hi := Array.getElem?_eq_getElem hlt
      simp only [hi] at h
      obtain ⟨w₁, hpass, h⟩ := bind_eq_ok.mp h
      rw [show (w.depths[n]?.getD none) = some depth from hdepth] at hpass
      obtain ⟨hgoing, hleft, hkeep⟩ :=
        going_of_pass hindexed hi (w := { w with pending }) hdepth (going_tail (.of_eq hp) hw)
          hpass
      -- each step takes one from what is left, as reaching keeps it
      have hleft' : ({ w with pending } : Walk).left + 1 = w.left := by
        show _ + pending.length + 1 = _ + w.pending.length
        rw [hp, List.length_cons, Nat.add_assoc]
      obtain ⟨hgoing', hnil, hkeep'⟩ := ih (by omega) hgoing h
      exact ⟨hgoing', hnil, fun m d hm => hkeep' m d (hkeep m d hm)⟩

end Run

section Entries

variable {g : Ground} {w w' : Walk}

/-- Everything that control enters from outside has been reached. -/
structure Entered (g : Ground) (clauses : List Clause) (w : Walk) : Prop where
  start : ∀ i, g.code[0]? = some i → Reached g w i.offset 0
  handler : ∀ c ∈ clauses, Reached g w c.handlerOffset (if c.isFinallyLike then 0 else 1)
  filter : ∀ c ∈ clauses, ∀ f ∈ c.filterOffset?, Reached g w f 1

theorem Entered.mono {clauses : List Clause} (h : Entered g clauses w)
    (hkeep : ∀ n d, w.at_ n = some d → w'.at_ n = some d) : Entered g clauses w' := by
  have hmono : ∀ {offset depth}, Reached g w offset depth → Reached g w' offset depth :=
    fun ⟨n, hn, hd⟩ => ⟨n, hn, hkeep n _ hd⟩
  exact ⟨fun i hi => hmono (h.start i hi), fun c hc => hmono (h.handler c hc),
    fun c hc f hf => hmono (h.filter c hc f hf)⟩

theorem left_start (size : Nat) : (start size).left = size := by
  unfold left start
  simp [Array.countP_replicate]

theorem at_start (size n : Nat) : (start size).at_ n = none := by
  unfold at_ start
  simp only [Array.getElem?_replicate]
  split <;> rfl

theorem going_start : Going g (fun _ => False) (start g.code.size) := by
  refine ⟨Array.size_replicate .., by simp [start], fun n d hn => ?_⟩
  rw [at_start] at hn
  cases hn

theorem going_of_enterClause (hindexed : Indexed g) (hw : Going g (fun _ => False) w) {c : Clause}
    (h : enterClause g w c = .ok w') :
    Going g (fun _ => False) w' ∧ Grows w w' ∧
      Reached g w' c.handlerOffset (if c.isFinallyLike then 0 else 1) ∧
      ∀ f ∈ c.filterOffset?, Reached g w' f 1 := by
  obtain ⟨w₁, hw₁, h⟩ := bind_eq_ok.mp h
  obtain ⟨hgoing, hgrows, hreached⟩ := going_of_enter hindexed hw hw₁
  rcases hfilter : c.filterOffset? with - | f
  · rw [hfilter] at h
    obtain rfl := pure_eq_ok.mp h
    exact ⟨hgoing, hgrows, hreached, by simp⟩
  · rw [hfilter] at h
    obtain ⟨hgoing', hgrows', hreached'⟩ := going_of_enter hindexed hgoing h
    refine ⟨hgoing', hgrows.trans hgrows', hreached.mono hgrows', ?_⟩
    rintro _ ⟨⟩
    exact hreached'

theorem going_of_enterClauses (hindexed : Indexed g) (hw : Going g (fun _ => False) w)
    {clauses : List Clause} (hstart : Entered g [] w)
    (h : clauses.foldlM (enterClause g) w = .ok w') :
    Going g (fun _ => False) w' ∧ Grows w w' ∧ Entered g clauses w' := by
  induction clauses generalizing w with
  | nil =>
    obtain rfl := pure_eq_ok.mp h
    exact ⟨hw, .refl w, hstart⟩
  | cons c clauses ih =>
    rw [List.foldlM_cons] at h
    obtain ⟨w₁, hw₁, h⟩ := bind_eq_ok.mp h
    obtain ⟨hgoing, hgrows, hhandler, hfilter⟩ := going_of_enterClause hindexed hw hw₁
    obtain ⟨hgoing', hgrows', hentered⟩ := ih hgoing
      ⟨fun i hi => (hstart.start i hi).mono hgrows, by simp, by simp⟩ h
    refine ⟨hgoing', hgrows.trans hgrows', hentered.start, ?_, ?_⟩
    · exact List.forall_mem_cons.mpr ⟨hhandler.mono hgrows', hentered.handler⟩
    · exact List.forall_mem_cons.mpr
        ⟨fun f hf => (hfilter f hf).mono hgrows', hentered.filter⟩

/-- The walk starts with what control enters from outside. -/
theorem going_of_enterAll (hindexed : Indexed g) (h : enterAll g = .ok w) :
    Going g (fun _ => False) w ∧ w.left = g.code.size ∧ Entered g g.clauses w := by
  unfold enterAll at h
  by_cases hempty : g.code.isEmpty = true
  · simp only [hempty, if_true] at h
    have hzero : Entered g [] (start g.code.size) := by
      refine ⟨fun i hi => ?_, by simp, by simp⟩
      rw [Array.isEmpty_iff.mp hempty] at hi
      cases hi
    obtain ⟨hgoing, hgrows, hentered⟩ := going_of_enterClauses hindexed going_start hzero h
    exact ⟨hgoing, hgrows.left.trans (left_start _), hentered⟩
  · simp only [hempty, Bool.false_eq_true, if_false] at h
    have hpos : 0 < g.code.size :=
      Nat.pos_of_ne_zero fun hzero => hempty (Array.isEmpty_iff_size_eq_zero.mpr hzero)
    have hi := Array.getElem?_eq_getElem hpos
    have hindex := (hindexed g.code[0].offset 0).mpr ⟨_, hi, rfl⟩
    -- what the walk starts with is what reaching the first instruction comes to
    have henter : enter g 0 (start g.code.size) g.code[0].offset 0 =
        .ok ((start g.code.size).reach 0 0) :=
      enter_eq_ok.mpr ⟨0, hindex, .inr ⟨at_start _ 0, rfl⟩⟩
    obtain ⟨hgoing, hgrows, hreached⟩ := going_of_enter hindexed going_start henter
    have hfirst : Entered g [] ((start g.code.size).reach 0 0) := by
      refine ⟨fun i hi' => ?_, by simp, by simp⟩
      obtain rfl := Option.some.inj (hi.symm.trans hi')
      exact hreached
    obtain ⟨hgoing', hgrows', hentered⟩ := going_of_enterClauses hindexed hgoing hfirst h
    exact ⟨hgoing', (hgrows'.left.trans hgrows.left).trans (left_start _), hentered⟩

end Entries

/-- The bound is one for the depths before and after every instruction. -/
def Bounds (g : Ground) (R : Offset → UInt16 → Prop) (bound : UInt16) : Prop :=
  ∀ i ∈ g.code, ∀ depth after, R i.offset depth → Passes g i depth after →
    depth ≤ bound ∧ after ≤ bound

end Walk

/-! ### What the walk finds -/

section Found

variable {g : Ground} {w : Walk}

/-- The depths found by a walk that has nothing left to pass, as a relation. -/
theorem closed_of_going (hindexed : Walk.Indexed g) (hw : Walk.Going g (fun _ => False) w)
    (hnil : w.pending = []) (hentered : Walk.Entered g g.clauses w) :
    Closed g (Walk.Reached g w) ∧ Walk.Bounds g (Walk.Reached g w) w.deepest := by
  have hhas : ∀ {offset depth}, Walk.Reached g w offset depth → g.Has offset :=
    fun ⟨n, hn, _⟩ => by
      obtain ⟨i, hi, hoffset⟩ := (hindexed _ n).mp hn
      exact ⟨i, Array.mem_of_getElem? hi, hoffset⟩
  -- nothing is pending any more, so all that was reached is settled
  have hstep : ∀ i ∈ g.code, ∀ depth, Walk.Reached g w i.offset depth → ∃ after,
      Passes g i depth after ∧ (∀ t ∈ successors i, Walk.Reached g w t (depthAfter i after)) ∧
        depth ≤ w.deepest ∧ after ≤ w.deepest := by
    rintro i hi depth ⟨n, hn, hdepth⟩
    obtain ⟨m, hm⟩ := Array.mem_iff_getElem?.mp hi
    have hindex := (hindexed i.offset m).mpr ⟨i, hm, rfl⟩
    obtain rfl := Option.some.inj (hindex.symm.trans hn)
    rcases hw.settled m depth hdepth with hpending | hfalse | hsettled
    · rw [hnil] at hpending
      cases hpending
    · exact hfalse.elim
    · exact hsettled i depth hm hdepth
  refine ⟨⟨hentered.start, fun c hc => ?_, fun c hc f hf => ?_, fun i hi depth hdepth => ?_⟩,
    fun i hi depth after hdepth hpasses => ?_⟩
  · exact ⟨hhas (hentered.handler c hc), hentered.handler c hc⟩
  · exact ⟨hhas (hentered.filter c hc f hf), hentered.filter c hc f hf⟩
  · obtain ⟨after, hpasses, hnext, -⟩ := hstep i hi depth hdepth
    exact ⟨after, hpasses, fun t ht => ⟨hhas (hnext t ht), hnext t ht⟩⟩
  · obtain ⟨after', hpasses', -, hle⟩ := hstep i hi depth hdepth
    rw [hpasses.unique hpasses']
    exact hle

/-- The depths found by the walk that takes the latest pending instruction first. -/
theorem closed_of_walk (hindexed : Walk.Indexed g) {w₀ : Walk} (h₀ : Walk.enterAll g = .ok w₀)
    (h : Walk.run g g.code.size w₀ = .ok w) :
    Closed g (Walk.Reached g w) ∧ Walk.Bounds g (Walk.Reached g w) w.deepest := by
  obtain ⟨hgoing₀, hleft, hentered⟩ := Walk.going_of_enterAll hindexed h₀
  obtain ⟨hgoing, hnil, hkeep⟩ := Walk.going_of_run hindexed (Nat.le_of_eq hleft) hgoing₀ h
  exact closed_of_going hindexed hgoing hnil (hentered.mono hkeep)

end Found

/-! ### Staying within a closed relation -/

namespace Walk

variable {g : Ground} {R : Offset → UInt16 → Prop} {w : Walk} {bound : UInt16}

/-- A walk that has found nothing outside of a relation, and no depth above a bound. -/
structure Within (g : Ground) (R : Offset → UInt16 → Prop) (bound : UInt16) (w : Walk) : Prop where
  size : w.depths.size = g.code.size
  pending : ∀ n ∈ w.pending, ∃ d, w.at_ n = some d
  within : ∀ n i d, g.code[n]? = some i → w.at_ n = some d → R i.offset d
  deepest : w.deepest ≤ bound

theorem within_reach (hw : Within g R bound w) {n : Nat} {i : Instruction Offset}
    {depth : UInt16} (hi : g.code[n]? = some i) (hR : R i.offset depth) :
    Within g R bound (w.reach n depth) := by
  have hlt : n < w.depths.size := by
    rw [hw.size]
    exact (Array.getElem?_eq_some_iff.mp hi).1
  refine ⟨Array.size_setIfInBounds.trans hw.size, ?_, ?_, hw.deepest⟩
  · intro m hm
    rw [at_reach hlt]
    split
    · exact ⟨depth, rfl⟩
    · next hne =>
      rcases List.mem_cons.mp hm with rfl | hm
      · exact absurd rfl hne
      · exact hw.pending m hm
  · intro m j d hj hd
    rw [at_reach hlt] at hd
    split at hd
    · next heq =>
      subst heq
      obtain rfl := Option.some.inj (hi.symm.trans hj)
      obtain rfl := Option.some.inj hd
      exact hR
    · exact hw.within m j d hj hd

/-- Positions that the relation has can be reached. -/
theorem enter_within (hindexed : Indexed g) (hfun : ∀ o d d', R o d → R o d' → d = d')
    (hw : Within g R bound w) (source : Offset) {offset : Offset} {depth : UInt16}
    (hhas : g.Has offset) (hR : R offset depth) :
    ∃ w', enter g source w offset depth = .ok w' ∧ Within g R bound w' := by
  obtain ⟨i, hi, rfl⟩ := hhas
  obtain ⟨n, hn⟩ := Array.mem_iff_getElem?.mp hi
  have hindex := (hindexed i.offset n).mpr ⟨i, hn, rfl⟩
  rcases hat : w.at_ n with - | existing
  · exact ⟨w.reach n depth, enter_eq_ok.mpr ⟨n, hindex, .inr ⟨hat, rfl⟩⟩, within_reach hw hn hR⟩
  · obtain rfl := hfun _ _ _ (hw.within n i existing hn hat) hR
    exact ⟨w, enter_eq_ok.mpr ⟨n, hindex, .inl ⟨hat, rfl⟩⟩, hw⟩

theorem enters_within (hindexed : Indexed g) (hfun : ∀ o d d', R o d → R o d' → d = d')
    (hw : Within g R bound w) (source : Offset) {depth : UInt16} {targets : List Offset}
    (h : ∀ t ∈ targets, g.Has t ∧ R t depth) :
    ∃ w', targets.foldlM (fun w target => enter g source w target depth) w = .ok w' ∧
      Within g R bound w' := by
  induction targets generalizing w with
  | nil => exact ⟨w, rfl, hw⟩
  | cons t targets ih =>
    obtain ⟨ht, h⟩ := List.forall_mem_cons.mp h
    obtain ⟨w₁, hw₁, hwithin⟩ := enter_within hindexed hfun hw source ht.1 ht.2
    obtain ⟨w₂, hw₂, hwithin'⟩ := ih hwithin h
    exact ⟨w₂, by rw [List.foldlM_cons]; exact bind_eq_ok.mpr ⟨w₁, hw₁, hw₂⟩, hwithin'⟩

/-- A pending instruction, whichever it is, can be passed. -/
theorem pass_within (hindexed : Indexed g) (hfun : ∀ o d d', R o d → R o d' → d = d')
    (hR : Closed g R) (hbound : Bounds g R bound) (hw : Within g R bound w) {n : Nat}
    {pending : List Nat} (hp : w.pending.Perm (n :: pending)) :
    ∃ i, g.code[n]? = some i ∧ ∃ w',
      pass g { w with pending } i ((w.at_ n).getD 0) = .ok w' ∧ Within g R bound w' := by
  obtain ⟨depth, hdepth⟩ := hw.pending n (hp.mem_iff.mpr List.mem_cons_self)
  have hlt := lt_of_at_ hdepth
  rw [hw.size] at hlt
  have hi := Array.getElem?_eq_getElem hlt
  have hmem : g.code[n] ∈ g.code := Array.getElem_mem hlt
  have hRdepth := hw.within n _ depth hi hdepth
  obtain ⟨after, hpasses, hnext⟩ := hR.step _ hmem depth hRdepth
  obtain ⟨hle, hle'⟩ := hbound _ hmem depth after hRdepth hpasses
  have hw₁ : Within g R bound { w with pending, deepest := max (max w.deepest after) depth } :=
    ⟨hw.size, fun m hm => hw.pending m (hp.mem_iff.mpr (List.mem_cons_of_mem n hm)), hw.within,
      max_le_of (max_le_of hw.deepest hle') hle⟩
  obtain ⟨w₂, hw₂, hwithin⟩ := enters_within hindexed hfun hw₁ g.code[n].offset hnext
  refine ⟨g.code[n], hi, w₂, ?_, hwithin⟩
  rw [hdepth]
  exact pass_eq_ok.mpr ⟨after, hpasses, hw₂⟩

theorem run_within (hindexed : Indexed g) (hfun : ∀ o d d', R o d → R o d' → d = d')
    (hR : Closed g R) (hbound : Bounds g R bound) (hw : Within g R bound w) (count : Nat) :
    ∃ w', run g count w = .ok w' ∧ Within g R bound w' := by
  induction count generalizing w with
  | zero => exact ⟨w, rfl, hw⟩
  | succ count ih =>
    unfold run
    rcases hp : w.pending with - | ⟨n, pending⟩
    · exact ⟨w, rfl, hw⟩
    · obtain ⟨i, hi, w₁, hw₁, hwithin⟩ :=
        pass_within hindexed hfun hR hbound hw (.of_eq hp)
      obtain ⟨w₂, hw₂, hwithin'⟩ := ih hwithin
      simp only [hi]
      exact ⟨w₂, bind_eq_ok.mpr ⟨w₁, hw₁, hw₂⟩, hwithin'⟩

theorem enterClause_within (hindexed : Indexed g) (hfun : ∀ o d d', R o d → R o d' → d = d')
    (hR : Closed g R) (hw : Within g R bound w) {c : Clause} (hc : c ∈ g.clauses) :
    ∃ w', enterClause g w c = .ok w' ∧ Within g R bound w' := by
  obtain ⟨hhas, hRc⟩ := hR.handler c hc
  obtain ⟨w₁, hw₁, hwithin⟩ := enter_within hindexed hfun hw c.handlerOffset hhas hRc
  rcases hfilter : c.filterOffset? with - | f
  · refine ⟨w₁, bind_eq_ok.mpr ⟨w₁, hw₁, ?_⟩, hwithin⟩
    rw [hfilter]
    rfl
  · obtain ⟨hhas', hRf⟩ := hR.filter c hc f hfilter
    obtain ⟨w₂, hw₂, hwithin'⟩ := enter_within hindexed hfun hwithin f hhas' hRf
    refine ⟨w₂, bind_eq_ok.mpr ⟨w₁, hw₁, ?_⟩, hwithin'⟩
    rw [hfilter]
    exact hw₂

theorem enterClauses_within (hindexed : Indexed g) (hfun : ∀ o d d', R o d → R o d' → d = d')
    (hR : Closed g R) (hw : Within g R bound w) {clauses : List Clause}
    (hmem : ∀ c ∈ clauses, c ∈ g.clauses) :
    ∃ w', clauses.foldlM (enterClause g) w = .ok w' ∧ Within g R bound w' := by
  induction clauses generalizing w with
  | nil => exact ⟨w, rfl, hw⟩
  | cons c clauses ih =>
    obtain ⟨hc, hmem⟩ := List.forall_mem_cons.mp hmem
    obtain ⟨w₁, hw₁, hwithin⟩ := enterClause_within hindexed hfun hR hw hc
    obtain ⟨w₂, hw₂, hwithin'⟩ := ih hwithin hmem
    exact ⟨w₂, by rw [List.foldlM_cons]; exact bind_eq_ok.mpr ⟨w₁, hw₁, hw₂⟩, hwithin'⟩

theorem within_start : Within g R bound (start g.code.size) := by
  refine ⟨going_start.size, going_start.pending, fun n i d _ hd => ?_, UInt16.zero_le⟩
  rw [at_start] at hd
  cases hd

theorem enterAll_within (hindexed : Indexed g) (hfun : ∀ o d d', R o d → R o d' → d = d')
    (hR : Closed g R) : ∃ w, enterAll g = .ok w ∧ Within g R bound w := by
  unfold enterAll
  by_cases hempty : g.code.isEmpty = true
  · simp only [hempty, if_true]
    exact enterClauses_within hindexed hfun hR within_start fun _ h => h
  · simp only [hempty, Bool.false_eq_true, if_false]
    have hpos : 0 < g.code.size :=
      Nat.pos_of_ne_zero fun hzero => hempty (Array.isEmpty_iff_size_eq_zero.mpr hzero)
    have hi := Array.getElem?_eq_getElem hpos
    exact enterClauses_within hindexed hfun hR
      (within_reach within_start hi (hR.start _ hi)) fun _ h => h

end Walk

/-! ### The whole walk -/

section Whole

variable {code : List (Instruction Offset)} (clauses : List Clause) (returnsValue : Bool)
  (callSites : CallSites)

theorem indexed_of (hdistinct : (code.map Instruction.offset).Nodup) :
    Walk.Indexed (.of code clauses returnsValue callSites) := by
  intro offset n
  show (indexByOffset code)[offset]? = some n ↔ ∃ i, code.toArray[n]? = some i ∧ i.offset = offset
  rw [indexByOffset_eq_some_of_nodup hdistinct]
  simp only [List.getElem?_toArray]

theorem simulateStack_eq_ok {report : StackReport} :
    simulateStack code clauses returnsValue callSites = .ok report ↔
      ∃ w₀ w, Walk.enterAll (.of code clauses returnsValue callSites) = .ok w₀ ∧
        Walk.run (.of code clauses returnsValue callSites) code.length w₀ = .ok w ∧
        report = ⟨(code.zip w.depths.toList).filterMap fun (i, depth) => depth.map (i.offset, ·),
          w.deepest⟩ := by
  unfold simulateStack
  simp only [bind_eq_ok, pure_eq_ok]
  constructor
  · rintro ⟨w₀, h₀, w, h, rfl⟩
    exact ⟨w₀, w, h₀, h, rfl⟩
  · rintro ⟨w₀, w, h₀, h, rfl⟩
    exact ⟨w₀, h₀, w, h, rfl⟩

/-- What a report has is what the walk has reached. -/
theorem mem_depths_iff (hdistinct : (code.map Instruction.offset).Nodup) {w : Walk}
    {offset : Offset} {depth : UInt16} :
    (offset, depth) ∈
        ((code.zip w.depths.toList).filterMap fun (i, depth) => depth.map (i.offset, ·)) ↔
      Walk.Reached (.of code clauses returnsValue callSites) w offset depth := by
  rw [List.mem_filterMap]
  constructor
  · rintro ⟨⟨i, d?⟩, hmem, heq⟩
    obtain ⟨d, hd, heq⟩ := Option.map_eq_some_iff.mp heq
    obtain ⟨rfl, rfl⟩ := Prod.mk.inj heq
    obtain ⟨n, hn⟩ := List.mem_iff_getElem?.mp hmem
    obtain ⟨hi, hd'⟩ := List.getElem?_zip_eq_some.mp hn
    refine ⟨n, (indexByOffset_eq_some_of_nodup hdistinct).mpr ⟨i, hi, rfl⟩, ?_⟩
    rw [Walk.at_, ← Array.getElem?_toList, hd']
    exact hd
  · rintro ⟨n, hn, hat⟩
    obtain ⟨i, hi, rfl⟩ := (indexByOffset_eq_some_of_nodup hdistinct).mp hn
    refine ⟨(i, some depth), List.mem_iff_getElem?.mpr ⟨n, ?_⟩, rfl⟩
    refine List.getElem?_zip_eq_some.mpr ⟨hi, ?_⟩
    rw [Walk.at_, ← Array.getElem?_toList] at hat
    rcases hd : w.depths.toList[n]? with - | d
    · rw [hd] at hat
      cases hat
    · rw [hd] at hat
      exact congrArg some hat

variable {clauses returnsValue callSites} {report : StackReport}

/-- The depths of a report are closed and one for each position, and its largest depth
is not below any. -/
theorem closed_of_simulateStack (hdistinct : (code.map Instruction.offset).Nodup)
    (h : simulateStack code clauses returnsValue callSites = .ok report) :
    Closed (.of code clauses returnsValue callSites) (fun o d => (o, d) ∈ report.depths) ∧
      (∀ o d d', (o, d) ∈ report.depths → (o, d') ∈ report.depths → d = d') ∧
      (∀ o d, (o, d) ∈ report.depths → ∃ i ∈ code, i.offset = o) ∧
      Walk.Bounds (.of code clauses returnsValue callSites) (fun o d => (o, d) ∈ report.depths)
        report.maxDepth := by
  obtain ⟨w₀, w, h₀, hrun, rfl⟩ := (simulateStack_eq_ok _ _ _).mp h
  have hindexed := indexed_of clauses returnsValue callSites hdistinct
  obtain ⟨hclosed, hbounds⟩ := closed_of_walk hindexed h₀ (w := w) (by
    rw [show (Ground.of code clauses returnsValue callSites).code.size = code.length from
      List.size_toArray]
    exact hrun)
  simp only [mem_depths_iff clauses returnsValue callSites hdistinct]
  refine ⟨hclosed, ?_, ?_, hbounds⟩
  · rintro o d d' ⟨n, hn, hd⟩ ⟨n', hn', hd'⟩
    obtain rfl := Option.some.inj (hn.symm.trans hn')
    exact Option.some.inj (hd.symm.trans hd')
  · rintro o d ⟨n, hn, -⟩
    obtain ⟨i, hi, hoffset⟩ := (indexByOffset_eq_some_of_nodup hdistinct).mp hn
    exact ⟨i, List.mem_of_getElem? hi, hoffset⟩

/-- The walk comes through a closed relation and finds nothing outside of it. -/
theorem simulateStack_within (hdistinct : (code.map Instruction.offset).Nodup)
    {R : Offset → UInt16 → Prop} {bound : UInt16}
    (hR : Closed (.of code clauses returnsValue callSites) R)
    (hfun : ∀ o d d', R o d → R o d' → d = d')
    (hbound : Walk.Bounds (.of code clauses returnsValue callSites) R bound) :
    ∃ report, simulateStack code clauses returnsValue callSites = .ok report ∧
      (∀ o d, (o, d) ∈ report.depths → R o d) ∧ report.maxDepth ≤ bound := by
  have hindexed := indexed_of clauses returnsValue callSites hdistinct
  obtain ⟨w₀, h₀, hwithin₀⟩ : ∃ w, Walk.enterAll (.of code clauses returnsValue callSites) = .ok w ∧
      Walk.Within _ R bound w := Walk.enterAll_within hindexed hfun hR
  obtain ⟨w, hrun, hwithin⟩ := Walk.run_within hindexed hfun hR hbound hwithin₀ code.length
  refine ⟨_, (simulateStack_eq_ok _ _ _).mpr ⟨w₀, w, h₀, hrun, rfl⟩, ?_, hwithin.deepest⟩
  intro o d hmem
  obtain ⟨n, hn, hd⟩ := (mem_depths_iff clauses returnsValue callSites hdistinct).mp hmem
  obtain ⟨i, hi, rfl⟩ := (hindexed o n).mp hn
  exact hwithin.within n i d hi hd

end Whole

end Check

end CilProbe
