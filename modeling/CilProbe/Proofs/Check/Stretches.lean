/-
CilProbe/Proofs/Check/Stretches.lean

Code in stretches.  A stretch is entered only at its first instruction, so the depths
that it is entered with settle those along it (`Along`).  Where every stretch is sound
(`Sound`), that is, every instruction can be passed and goes on to the next one or to
the start of a stretch that is entered with what it leaves, the depths along all
stretches are closed (`closed_of_stretches`) and one for each position
(`found_unique`).
-/
import CilProbe.Proofs.Check.Effects
import CilProbe.Proofs.Check.Stack
import Mathlib.Data.List.Nodup
import Mathlib.Data.List.Pairwise

namespace CilProbe

namespace Check

/-! ### Stretches -/

/-- A stretch of code. -/
structure Stretch where
  /-- Its instructions. -/
  code : List (Instruction Offset)
  /-- The depths that control enters it with. -/
  entered : UInt16 → Prop

/-- Control that enters code with `depth` values on the stack passes along it, and comes
to an instruction with so many. -/
inductive Along (g : Ground) :
    UInt16 → List (Instruction Offset) → Instruction Offset → UInt16 → Prop where
  | head (depth : UInt16) (i : Instruction Offset) (rest : List (Instruction Offset)) :
      Along g depth (i :: rest) i depth
  | tail {depth after d : UInt16} {i j : Instruction Offset} {rest : List (Instruction Offset)} :
      Passes g i depth after → Along g after rest j d → Along g depth (i :: rest) j d

/-- Every instruction can be passed, with no depth above the bound, and goes on to the
next one or out of the stretch. -/
def Sound (g : Ground) (out : Offset → UInt16 → Prop) (bound : UInt16) :
    UInt16 → List (Instruction Offset) → Prop
  | _, [] => True
  | depth, i :: rest => ∃ after, Passes g i depth after ∧ (depth ≤ bound ∧ after ≤ bound) ∧
      (∀ t ∈ successors i, (∃ j ∈ rest.head?, j.offset = t) ∧ depthAfter i after = after ∨
        out t (depthAfter i after)) ∧
      Sound g out bound after rest

/-- A position is the start of a stretch that is entered with this depth. -/
def EntersAt (stretches : List Stretch) (offset : Offset) (depth : UInt16) : Prop :=
  ∃ s ∈ stretches, s.entered depth ∧ ∃ i ∈ s.code.head?, i.offset = offset

/-- A position has this depth along a stretch. -/
def Found (g : Ground) (stretches : List Stretch) (offset : Offset) (depth : UInt16) : Prop :=
  ∃ s ∈ stretches, ∃ d, s.entered d ∧ ∃ i, Along g d s.code i depth ∧ i.offset = offset

section Along

variable {g : Ground} {out : Offset → UInt16 → Prop} {bound depth d : UInt16}
  {code : List (Instruction Offset)} {i : Instruction Offset}

theorem Along.mem (h : Along g depth code i d) : i ∈ code := by
  induction h with
  | head => exact List.mem_cons_self
  | tail _ _ ih => exact List.mem_cons_of_mem _ ih

/-- Along a stretch there is one depth for each position. -/
theorem Along.unique (hnodup : (code.map Instruction.offset).Nodup) {i' : Instruction Offset}
    {d' : UInt16} (h : Along g depth code i d) (h' : Along g depth code i' d')
    (hoffset : i.offset = i'.offset) : d = d' := by
  induction h with
  | head depth i rest =>
    cases h' with
    | head => rfl
    | tail _ h' =>
      rw [List.map_cons, List.nodup_cons, hoffset] at hnodup
      exact absurd (List.mem_map_of_mem h'.mem) hnodup.1
  | tail hpasses h ih =>
    rw [List.map_cons, List.nodup_cons] at hnodup
    cases h' with
    | head =>
      rw [← hoffset] at hnodup
      exact absurd (List.mem_map_of_mem h.mem) hnodup.1
    | tail hpasses' h' =>
      rw [hpasses'.unique hpasses] at h'
      exact ih hnodup.2 h' hoffset

/-- From everywhere along a sound stretch control goes on along it, or out of it. -/
theorem Along.step (hsound : Sound g out bound depth code) (h : Along g depth code i d) :
    ∃ after, Passes g i d after ∧ (d ≤ bound ∧ after ≤ bound) ∧
      ∀ t ∈ successors i, (∃ j, Along g depth code j (depthAfter i after) ∧ j.offset = t) ∨
        out t (depthAfter i after) := by
  induction h with
  | head depth i rest =>
    obtain ⟨after, hpasses, hbound, hnext, -⟩ := hsound
    refine ⟨after, hpasses, hbound, fun t ht => (hnext t ht).imp_left ?_⟩
    rintro ⟨⟨j, hj, rfl⟩, hdepth⟩
    obtain ⟨rest', rfl⟩ := List.head?_eq_some_iff.mp hj
    rw [hdepth]
    exact ⟨j, .tail hpasses (.head after j rest'), rfl⟩
  | tail hpasses _ ih =>
    obtain ⟨after', hpasses', -, -, hrest⟩ := hsound
    rw [hpasses'.unique hpasses] at hrest
    obtain ⟨after, hpasses₁, hbound, hnext⟩ := ih hrest
    refine ⟨after, hpasses₁, hbound, fun t ht => (hnext t ht).imp_left ?_⟩
    rintro ⟨j, hj, rfl⟩
    exact ⟨j, .tail hpasses hj, rfl⟩

end Along

/-! ### Soundness -/

/-- What is left by instructions with these effects, if each finds what it takes and
never more than `most` values are there. -/
def leftBy (most : UInt16) : UInt16 → List StackEffect → Option UInt16
  | depth, [] => if depth ≤ most then some depth else none
  | depth, e :: effects =>
    if e.pops ≤ depth ∧ depth ≤ most then leftBy most (depth - e.pops + e.pushes) effects
    else none

section Sound

variable {g : Ground} {out : Offset → UInt16 → Prop} {bound most depth after : UInt16}

theorem leftBy_le {effects : List StackEffect} (h : leftBy most depth effects = some after) :
    depth ≤ most := by
  unfold leftBy at h
  split at h <;> split at h
  · assumption
  · cases h
  · next hle => exact hle.2
  · cases h

/-- A stretch may end with an instruction that goes out of it. -/
theorem sound_last {i : Instruction Offset} (hpasses : Passes g i depth after)
    (hdepth : depth ≤ bound) (hafter : after ≤ bound)
    (hout : ∀ t ∈ successors i, out t (depthAfter i after)) : Sound g out bound depth [i] :=
  ⟨after, hpasses, ⟨hdepth, hafter⟩, fun t ht => .inr (hout t ht), trivial⟩

/-- A stretch may start with instructions that go on to the next one. -/
theorem sound_append {is rest : List (Instruction Offset)} {effects : List StackEffect}
    (his : List.Forall₂ (Straight g.callSites g.returnsValue) is effects)
    (hleft : leftBy most depth effects = some after) (hmost : most ≤ bound)
    (hinside : ∀ i ∈ is, ∀ c ∈ g.clauses, c.tryOffset ≠ i.offset) {start : Nat}
    (hcont : Contiguous start (is ++ rest)) (hend : codeEnd start (is ++ rest) ≤ Offset.last)
    (hout : ∀ i ∈ is.getLast?, rest = [] → out i.nextOffset after)
    (hrest : Sound g out bound after rest) : Sound g out bound depth (is ++ rest) := by
  -- along the straight instructions; the depth that each leaves is the one of the next
  induction his generalizing depth start with
  | nil =>
    unfold leftBy at hleft
    split at hleft
    · obtain rfl := Option.some.inj hleft
      exact hrest
    · cases hleft
  | @cons i e is effects hi his ih =>
    obtain ⟨hinside, hinside'⟩ := List.forall_mem_cons.mp hinside
    have hdepth := leftBy_le hleft
    unfold leftBy at hleft
    split at hleft
    · next hle =>
      have hpasses : Passes g i depth (depth - e.pops + e.pushes) :=
        ⟨.inr hinside, ⟨e, hi.effect, hle.1, rfl⟩, fun hret => absurd hret hi.flow.2⟩
      have hafter : depthAfter i (depth - e.pops + e.pushes) = depth - e.pops + e.pushes :=
        if_neg hi.flow.1
      refine ⟨_, hpasses, ⟨UInt16.le_trans hdepth hmost,
        UInt16.le_trans (leftBy_le hleft) hmost⟩, ?_, ih hleft hinside' hcont.2 hend ?_⟩
      · intro t ht
        rw [hi.successors, List.mem_singleton] at ht
        subst ht
        rw [hafter]
        rcases hnext : is ++ rest with - | ⟨j, after'⟩
        · -- nothing follows, so this is the last one
          obtain ⟨rfl, rfl⟩ := List.append_eq_nil_iff.mp hnext
          cases his
          unfold leftBy at hleft
          split at hleft
          · obtain rfl := Option.some.inj hleft
            exact .inr (hout i rfl rfl)
          · cases hleft
        · have hhead : (is ++ rest).head? = some j := by rw [hnext]; rfl
          refine .inl ⟨⟨j, hhead, ?_⟩, rfl⟩
          rw [List.cons_append, hnext] at hcont hend
          exact (nextOffset_eq_offset hcont hend (k := 0) rfl rfl).symm
      · intro j hj hnil
        refine hout j ?_ hnil
        rw [List.getLast?_cons]
        rw [Option.mem_def] at hj ⊢
        rw [hj]
        rfl
    · cases hleft

/-- Where a closed relation has the start of instructions that go on to the next one, it
has what is behind them. -/
theorem closed_straight {R : Offset → UInt16 → Prop} (hR : Closed g R)
    {is : List (Instruction Offset)} {effects : List StackEffect}
    (his : List.Forall₂ (Straight g.callSites g.returnsValue) is effects)
    (hleft : leftBy most depth effects = some after) (hmem : ∀ i ∈ is, i ∈ g.code) {start : Nat}
    (hcont : Contiguous start is) (hend : codeEnd start is ≤ Offset.last)
    (hhead : ∀ i ∈ is.head?, R i.offset depth) : ∀ i ∈ is.getLast?, R i.nextOffset after := by
  induction his generalizing depth start with
  | nil => exact fun i hi => by cases hi
  | @cons i e is effects hi his ih =>
    obtain ⟨hcode, hmem⟩ := List.forall_mem_cons.mp hmem
    obtain ⟨after', hpasses, hnext⟩ := hR.step i hcode depth (hhead i rfl)
    obtain ⟨e', he', -, rfl⟩ := hpasses.effect
    obtain rfl := Except.ok.inj (hi.effect.symm.trans he')
    obtain ⟨-, hgo⟩ := hnext i.nextOffset (by rw [hi.successors]; exact List.mem_singleton_self _)
    rw [depthAfter, if_neg hi.flow.1] at hgo
    unfold leftBy at hleft
    split at hleft
    · -- the last effect leaves the depth, any other one is what the next instruction starts with
      rcases his with - | ⟨hj, his⟩
      · unfold leftBy at hleft
        split at hleft
        · obtain rfl := Option.some.inj hleft
          rintro _ ⟨⟩
          exact hgo
        · cases hleft
      · next j _ is' _ =>
        rw [List.getLast?_cons_cons]
        refine ih hleft hmem hcont.2 hend ?_
        rintro _ ⟨⟩
        rwa [← nextOffset_eq_offset hcont hend (k := 0) rfl rfl]
    · cases hleft

end Sound

/-! ### All stretches together -/

section Together

variable {g : Ground} {stretches : List Stretch} {bound : UInt16}

theorem Found.of_entersAt {offset : Offset} {depth : UInt16}
    (h : EntersAt stretches offset depth) : Found g stretches offset depth := by
  obtain ⟨s, hs, hentered, i, hi, rfl⟩ := h
  obtain ⟨rest, hcode⟩ := List.head?_eq_some_iff.mp hi
  refine ⟨s, hs, depth, hentered, i, ?_, rfl⟩
  rw [hcode]
  exact .head depth i rest

theorem Found.has (hcode : g.code.toList = (stretches.map Stretch.code).flatten) {offset : Offset}
    {depth : UInt16} (h : Found g stretches offset depth) : g.Has offset := by
  obtain ⟨s, hs, d, hd, i, halong, rfl⟩ := h
  refine ⟨i, ?_, rfl⟩
  rw [← Array.mem_toList_iff, hcode]
  exact List.mem_flatten_of_mem (List.mem_map_of_mem hs) halong.mem

/-- The depths along sound stretches are closed, if what control enters from outside is
the start of stretches. -/
theorem closed_of_stretches (hcode : g.code.toList = (stretches.map Stretch.code).flatten)
    (hsound : ∀ s ∈ stretches, ∀ d, s.entered d → Sound g (EntersAt stretches) bound d s.code)
    (hnodup : (g.code.toList.map Instruction.offset).Nodup)
    (hstart : ∀ i, g.code[0]? = some i → EntersAt stretches i.offset 0)
    (hhandler : ∀ c ∈ g.clauses,
      EntersAt stretches c.handlerOffset (if c.isFinallyLike then 0 else 1))
    (hfilter : ∀ c ∈ g.clauses, ∀ f ∈ c.filterOffset?, EntersAt stretches f 1) :
    Closed g (Found g stretches) ∧ Walk.Bounds g (Found g stretches) bound := by
  have hstep : ∀ i ∈ g.code, ∀ depth, Found g stretches i.offset depth → ∃ after,
      Passes g i depth after ∧ (depth ≤ bound ∧ after ≤ bound) ∧
        ∀ t ∈ successors i, Found g stretches t (depthAfter i after) := by
    rintro i hi depth ⟨s, hs, d, hd, j, hj, hoffset⟩
    have hjcode : j ∈ g.code := by
      rw [← Array.mem_toList_iff, hcode]
      exact List.mem_flatten_of_mem (List.mem_map_of_mem hs) hj.mem
    -- positions are those of one instruction, so the stretch has this one itself
    obtain rfl : j = i :=
      List.inj_on_of_nodup_map hnodup (Array.mem_toList_iff.mpr hjcode)
        (Array.mem_toList_iff.mpr hi) hoffset
    obtain ⟨after, hpasses, hbound, hnext⟩ := hj.step (hsound s hs d hd)
    refine ⟨after, hpasses, hbound, fun t ht => ?_⟩
    rcases hnext t ht with ⟨k, hk, rfl⟩ | hout
    · exact ⟨s, hs, d, hd, k, hk, rfl⟩
    · exact .of_entersAt hout
  refine ⟨⟨fun i hi => .of_entersAt (hstart i hi), fun c hc => ?_, fun c hc f hf => ?_,
    fun i hi depth hdepth => ?_⟩, fun i hi depth after hdepth hpasses => ?_⟩
  · have hfound := Found.of_entersAt (g := g) (hhandler c hc)
    exact ⟨hfound.has hcode, hfound⟩
  · have hfound := Found.of_entersAt (g := g) (hfilter c hc f hf)
    exact ⟨hfound.has hcode, hfound⟩
  · obtain ⟨after, hpasses, -, hnext⟩ := hstep i hi depth hdepth
    exact ⟨after, hpasses, fun t ht => ⟨(hnext t ht).has hcode, hnext t ht⟩⟩
  · obtain ⟨after', hpasses', hbound, -⟩ := hstep i hi depth hdepth
    rw [hpasses.unique hpasses']
    exact hbound

/-- A position is in one stretch only. -/
theorem stretch_unique
    (hnodup : ((stretches.map Stretch.code).flatten.map Instruction.offset).Nodup)
    {s s' : Stretch} (hs : s ∈ stretches) (hs' : s' ∈ stretches) {i i' : Instruction Offset}
    (hi : i ∈ s.code) (hi' : i' ∈ s'.code) (hoffset : i.offset = i'.offset) : s = s' := by
  rw [List.map_flatten, List.nodup_flatten, List.pairwise_map, List.pairwise_map] at hnodup
  by_contra hne
  have hsymm : Std.Symm fun a b : Stretch =>
      (a.code.map Instruction.offset).Disjoint (b.code.map Instruction.offset) :=
    ⟨fun _ _ h _ hx hx' => h hx' hx⟩
  have hdisjoint := hnodup.2.forall hs hs' hne
  exact hdisjoint (List.mem_map_of_mem hi) (hoffset ▸ List.mem_map_of_mem hi')

/-- If each stretch is entered with one depth, there is one depth for each position. -/
theorem found_unique
    (hnodup : ((stretches.map Stretch.code).flatten.map Instruction.offset).Nodup)
    (hone : ∀ s ∈ stretches, ∀ d d', s.entered d → s.entered d' → d = d') {offset : Offset}
    {depth depth' : UInt16} (h : Found g stretches offset depth)
    (h' : Found g stretches offset depth') : depth = depth' := by
  obtain ⟨s, hs, d, hd, i, hi, hoffset⟩ := h
  obtain ⟨s', hs', d', hd', i', hi', hoffset'⟩ := h'
  have heq := hoffset.trans hoffset'.symm
  obtain rfl := stretch_unique hnodup hs hs' hi.mem hi'.mem heq
  obtain rfl := hone s hs d d' hd hd'
  rw [List.map_flatten, List.nodup_flatten] at hnodup
  exact hi.unique (hnodup.1 _ (List.mem_map_of_mem (List.mem_map_of_mem hs))) hi' heq

end Together

end Check

end CilProbe
