/-
CilProbe/Proofs/Check/Reachable.lean

The check of the stack as a system of equations.  Control can reach a least set of
instructions (`Reachable`), and on them the depths must fit together (`Fits`): known
where control comes in, changed along every step by what the instruction takes and puts
(`Effect`), and right wherever the code asks for a depth.  Neither notion says in which
order anything is found.

Depths that fit, over positions that are all there and calls that are all known
(`Complete`), are the same thing as a closed relation (`fits_of_closed`,
`closed_of_fits`); so whatever is known of closed relations speaks of the equations.
-/
import CilProbe.Proofs.Check.Stack
import CilProbe.Proofs.Cil.Injected

namespace CilProbe

namespace Check

variable {code : List (Instruction Offset)} {clauses : List Clause} {returnsValue : Bool}
  {callSites : CallSites} {i : Instruction Offset}

/-! ### Effects, counted -/

/-- The values that calling something with the given signature takes, counted in full. -/
def callTakes (op : Opcode) (s : MethodSig) : Nat :=
  if op = Opcode.newobj then s.arity
  else if op = Opcode.calli then s.stackPops + 1
  else s.stackPops

/-- The values that it puts. -/
def callGives (op : Opcode) (s : MethodSig) : Nat :=
  if op = Opcode.newobj then 1 else if s.ret.isVoid then 0 else 1

/-- An instruction whose use of the stack is up to the signature of what it calls. -/
def Calls (i : Instruction Offset) : Prop :=
  (i.opcode.info.pops = .signature ∨ i.opcode.info.pushes = .signature) ∧ i.opcode ≠ Opcode.ret

/-- What an instruction takes from the stack and puts on it, counted in full: as the
table says, or the value returned, or as the signature of what it calls says. -/
inductive Effect (callSites : CallSites) (returnsValue : Bool) (i : Instruction Offset) :
    Nat → Nat → Prop
  | table {pops pushes} : i.opcode.info.pops = .slots pops → i.opcode.info.pushes = .slots pushes →
      Effect callSites returnsValue i pops pushes
  | ret : i.opcode = Opcode.ret → Effect callSites returnsValue i (if returnsValue then 1 else 0) 0
  | call {token s} : Calls i → i.token? = some token → callSites token = .ok s →
      Effect callSites returnsValue i (callTakes i.opcode s) (callGives i.opcode s)

theorem pops_ret (h : i.opcode = Opcode.ret) : i.opcode.info.pops = .signature := by
  rw [h, Opcode.info_of_info? Opcode.info?_ret]

theorem callEffect_eq (op : Opcode) (s : MethodSig) :
    callEffect op s = ⟨.ofNat (callTakes op s), .ofNat (callGives op s)⟩ := by
  unfold callEffect callTakes callGives
  by_cases hnew : op = Opcode.newobj
  · simp only [if_pos hnew]
    rfl
  · by_cases hcalli : op = Opcode.calli
    · simp only [if_neg hnew, if_pos hcalli, UInt16.ofNat_add]
      split <;> rfl
    · simp only [if_neg hnew, if_neg hcalli]
      split <;> rfl

theorem calledSignature_eq_ok {s : MethodSig} :
    calledSignature callSites i = .ok s ↔
      ∃ token, i.token? = some token ∧ callSites token = .ok s := by
  unfold calledSignature
  rcases htoken : i.token? with - | token
  · simp [reject]
  · rcases hsite : callSites token with e | s'
    · simp [hsite, reject]
    · simp [hsite]

/-- The walk works with effects cut to 16 bits. -/
theorem stackEffect_eq_ok_iff {e : StackEffect} :
    stackEffect callSites returnsValue i = .ok e ↔
      ∃ pops pushes, Effect callSites returnsValue i pops pushes ∧
        e = ⟨.ofNat pops, .ofNat pushes⟩ := by
  unfold stackEffect
  constructor
  · intro h
    split at h
    · next pops pushes hpops hpushes =>
      exact ⟨pops, pushes, .table hpops hpushes, (Except.ok.inj h).symm⟩
    · next hslots =>
      -- what the table leaves open is a return or a call
      have hsignature : i.opcode.info.pops = .signature ∨ i.opcode.info.pushes = .signature := by
        rcases hpops : i.opcode.info.pops with pops | -
        · rcases hpushes : i.opcode.info.pushes with pushes | -
          · exact absurd hpushes (hslots pops pushes hpops)
          · exact .inr rfl
        · exact .inl rfl
      split at h
      · next hret =>
        refine ⟨_, _, .ret hret, (Except.ok.inj h).symm.trans ?_⟩
        rcases returnsValue with - | - <;> rfl
      · next hret =>
        obtain ⟨s, hs, h⟩ := bind_eq_ok.mp h
        obtain ⟨token, htoken, hsite⟩ := calledSignature_eq_ok.mp hs
        refine ⟨_, _, .call ⟨hsignature, hret⟩ htoken hsite, ?_⟩
        rw [← pure_eq_ok.mp h, callEffect_eq]
  · rintro ⟨pops, pushes, heffect, rfl⟩
    cases heffect with
    | table hpops hpushes => rw [hpops, hpushes]
    | ret hret =>
      rw [pops_ret hret]
      simp only [hret, if_true]
      rcases returnsValue with - | - <;> rfl
    | @call token s hcalls htoken hsite =>
      have hs := calledSignature_eq_ok.mpr ⟨token, htoken, hsite⟩
      split
      · next pops pushes hpops hpushes =>
        rcases hcalls.1 with h | h
        · rw [hpops] at h
          cases h
        · rw [hpushes] at h
          cases h
      · rw [if_neg hcalls.2, hs]
        exact congrArg Except.ok (callEffect_eq i.opcode s)

/-- An instruction has an effect as soon as what it calls is known. -/
theorem exists_effect (h : Calls i → ∃ token s, i.token? = some token ∧ callSites token = .ok s) :
    ∃ pops pushes, Effect callSites returnsValue i pops pushes := by
  by_cases hcalls : Calls i
  · obtain ⟨token, s, htoken, hsite⟩ := h hcalls
    exact ⟨_, _, .call hcalls htoken hsite⟩
  · by_cases hret : i.opcode = Opcode.ret
    · exact ⟨_, _, .ret hret⟩
    · rcases hpops : i.opcode.info.pops with pops | -
      · rcases hpushes : i.opcode.info.pushes with pushes | -
        · exact ⟨pops, pushes, .table hpops hpushes⟩
        · exact absurd ⟨.inr hpushes, hret⟩ hcalls
      · exact absurd ⟨.inl hpops, hret⟩ hcalls

/-! ### What control can reach -/

/-- The instruction with the given number stands at a position. -/
def StandsAt (code : List (Instruction Offset)) (n : Nat) (offset : Offset) : Prop :=
  ∃ i, code[n]? = some i ∧ i.offset = offset

theorem standsAt_iff {n : Nat} {offset : Offset} :
    StandsAt code n offset ↔ (code.map Instruction.offset)[n]? = some offset := by
  unfold StandsAt
  simp

theorem StandsAt.unique (hdistinct : (code.map Instruction.offset).Nodup) {m n : Nat}
    {offset : Offset} (hm : StandsAt code m offset) (hn : StandsAt code n offset) : m = n := by
  obtain ⟨i, hi, rfl⟩ := hm
  obtain ⟨j, hj, heq⟩ := hn
  exact eq_of_offset_eq_of_nodup hdistinct hi hj heq.symm

/-- Control can reach the instruction with the given number: the first one, those that
start a handler or a filter, and from each of them on wherever it leads. -/
inductive Reachable (code : List (Instruction Offset)) (clauses : List Clause) : Nat → Prop
  | entry : 0 < code.length → Reachable code clauses 0
  | handler {c n} : c ∈ clauses → StandsAt code n c.handlerOffset → Reachable code clauses n
  | filter {c f n} : c ∈ clauses → f ∈ c.filterOffset? → StandsAt code n f →
      Reachable code clauses n
  | step {n i t m} : Reachable code clauses n → code[n]? = some i → t ∈ successors i →
      StandsAt code m t → Reachable code clauses m

/-- A position where control needs an instruction. -/
inductive Needed (code : List (Instruction Offset)) (clauses : List Clause) : Offset → Prop
  | handler {c} : c ∈ clauses → Needed code clauses c.handlerOffset
  | filter {c f} : c ∈ clauses → f ∈ c.filterOffset? → Needed code clauses f
  | successor {n i t} : Reachable code clauses n → code[n]? = some i → t ∈ successors i →
      Needed code clauses t

theorem Reachable.exists_instruction {n : Nat} (h : Reachable code clauses n) :
    ∃ i, code[n]? = some i := by
  cases h with
  | entry hpos => exact ⟨code[0], List.getElem?_eq_getElem hpos⟩
  | handler _ hn => exact hn.imp fun _ h => h.1
  | filter _ _ hn => exact hn.imp fun _ h => h.1
  | step _ _ _ hm => exact hm.imp fun _ h => h.1

/-! ### Depths that fit -/

/-- Every position that control needs has an instruction, and every call that control can
reach is known. -/
structure Complete (code : List (Instruction Offset)) (clauses : List Clause)
    (callSites : CallSites) : Prop where
  needed : ∀ offset, Needed code clauses offset → ∃ n, StandsAt code n offset
  known : ∀ n i, Reachable code clauses n → code[n]? = some i → Calls i →
    ∃ token s, i.token? = some token ∧ callSites token = .ok s

/-- Depths, one for each instruction by number, that fit together on all that control can
reach.  The arithmetic is that of 16-bit words. -/
structure Fits (code : List (Instruction Offset)) (clauses : List Clause) (returnsValue : Bool)
    (callSites : CallSites) (d : Nat → UInt16) : Prop where
  entry : 0 < code.length → d 0 = 0
  handler : ∀ c ∈ clauses, ∀ n, StandsAt code n c.handlerOffset →
    d n = if c.isFinallyLike then 0 else 1
  filter : ∀ c ∈ clauses, ∀ f ∈ c.filterOffset?, ∀ n, StandsAt code n f → d n = 1
  enough : ∀ n i pops pushes, Reachable code clauses n → code[n]? = some i →
    Effect callSites returnsValue i pops pushes → .ofNat pops ≤ d n
  edge : ∀ n i pops pushes, Reachable code clauses n → code[n]? = some i →
    Effect callSites returnsValue i pops pushes → ∀ t ∈ successors i, ∀ m, StandsAt code m t →
      d m = if i.opcode.info.flow = .leave then 0 else d n - .ofNat pops + .ofNat pushes
  entered : ∀ n i, Reachable code clauses n → code[n]? = some i →
    ∀ c ∈ clauses, c.tryOffset = i.offset → d n = 0
  returned : ∀ n i, Reachable code clauses n → code[n]? = some i → i.opcode = Opcode.ret →
    d n = if returnsValue then 1 else 0

/-- The depths at the positions that control can reach, as a relation. -/
def FoundBy (code : List (Instruction Offset)) (clauses : List Clause) (d : Nat → UInt16)
    (offset : Offset) (depth : UInt16) : Prop :=
  ∃ n, Reachable code clauses n ∧ StandsAt code n offset ∧ d n = depth

theorem FoundBy.unique (hdistinct : (code.map Instruction.offset).Nodup) {d : Nat → UInt16}
    {o : Offset} {x y : UInt16} (hx : FoundBy code clauses d o x)
    (hy : FoundBy code clauses d o y) : x = y := by
  obtain ⟨m, -, hm, rfl⟩ := hx
  obtain ⟨n, -, hn, rfl⟩ := hy
  rw [hm.unique hdistinct hn]

/-! ### From closed relations to depths -/

theorem Passes.eq_of_effect {g : Ground} {depth after : UInt16} {pops pushes : Nat}
    (h : Passes g i depth after) (heffect : Effect g.callSites g.returnsValue i pops pushes) :
    .ofNat pops ≤ depth ∧ after = depth - .ofNat pops + .ofNat pushes := by
  obtain ⟨e, he, hpops, hafter⟩ := h.effect
  have he' := stackEffect_eq_ok_iff.mpr ⟨pops, pushes, heffect, rfl⟩
  obtain rfl := Except.ok.inj (he.symm.trans he')
  exact ⟨hpops, hafter⟩

/-- A return that leaves nothing behind finds the value it returns, and nothing else. -/
theorem depth_of_passes_return {g : Ground} {depth after : UInt16} (h : Passes g i depth after)
    (hret : i.opcode = Opcode.ret) : depth = if g.returnsValue then 1 else 0 := by
  have hflow : i.opcode.info.flow = .ret := by rw [hret, Opcode.info_of_info? Opcode.info?_ret]
  obtain ⟨-, hafter⟩ := h.eq_of_effect (.ret hret)
  rw [h.returned hflow] at hafter
  have hadd := UInt16.sub_add_cancel depth (.ofNat (if g.returnsValue then 1 else 0))
  rw [show UInt16.ofNat 0 = 0 from rfl, UInt16.add_zero] at hafter
  rw [← hafter, UInt16.zero_add] at hadd
  rw [← hadd]
  rcases g.returnsValue with - | - <;> rfl

section FromClosed

variable {R : Offset → UInt16 → Prop} (hR : Closed (.of code clauses returnsValue callSites) R)
include hR

/-- A closed relation has a depth for all that control can reach. -/
theorem Closed.exists_depth {n : Nat} (h : Reachable code clauses n) (hi : code[n]? = some i) :
    ∃ depth, R i.offset depth := by
  induction h generalizing i with
  | entry _ => exact ⟨0, hR.start i ((Ground.getElem?_code ..).trans hi)⟩
  | handler hc hn =>
    obtain ⟨j, hj, hoffset⟩ := hn
    obtain rfl := Option.some.inj (hi.symm.trans hj)
    exact ⟨_, hoffset ▸ (hR.handler _ hc).2⟩
  | filter hc hf hn =>
    obtain ⟨j, hj, hoffset⟩ := hn
    obtain rfl := Option.some.inj (hi.symm.trans hj)
    exact ⟨1, hoffset ▸ (hR.filter _ hc _ hf).2⟩
  | step hn hj ht hm ih =>
    obtain ⟨k, hk, hoffset⟩ := hm
    obtain rfl := Option.some.inj (hi.symm.trans hk)
    obtain ⟨depth, hdepth⟩ := ih hj
    obtain ⟨after, -, hnext⟩ :=
      hR.step _ (Ground.mem_code.mpr (List.mem_of_getElem? hj)) depth hdepth
    exact ⟨_, hoffset ▸ (hnext _ ht).2⟩

/-- What control needs of the code is there if some relation is closed. -/
theorem Closed.complete : Complete code clauses callSites := by
  have hstands : ∀ {o : Offset},
      (Ground.of code clauses returnsValue callSites).Has o → ∃ n, StandsAt code n o := by
    rintro o ⟨i, hi, rfl⟩
    obtain ⟨n, hn⟩ := List.mem_iff_getElem?.mp (Ground.mem_code.mp hi)
    exact ⟨n, i, hn, rfl⟩
  -- whatever control can reach is passed, so where it goes to is there
  have hstep : ∀ {n : Nat} {i : Instruction Offset}, Reachable code clauses n →
      code[n]? = some i → ∃ depth after, Passes (.of code clauses returnsValue callSites) i
        depth after ∧ ∀ t ∈ successors i,
          (Ground.of code clauses returnsValue callSites).Has t := by
    intro n i hn hi
    obtain ⟨depth, hdepth⟩ := hR.exists_depth hn hi
    obtain ⟨after, hpasses, hnext⟩ :=
      hR.step i (Ground.mem_code.mpr (List.mem_of_getElem? hi)) depth hdepth
    exact ⟨depth, after, hpasses, fun t ht => (hnext t ht).1⟩
  constructor
  case needed =>
    intro offset h
    cases h with
    | handler hc => exact hstands (hR.handler _ hc).1
    | filter hc hf => exact hstands (hR.filter _ hc _ hf).1
    | successor hn hi ht =>
      obtain ⟨-, -, -, hnext⟩ := hstep hn hi
      exact hstands (hnext _ ht)
  case known =>
    intro n i hn hi hcalls
    obtain ⟨depth, after, hpasses, -⟩ := hstep hn hi
    obtain ⟨e, he, -⟩ := hpasses.effect
    obtain ⟨pops, pushes, heffect, -⟩ := stackEffect_eq_ok_iff.mp he
    cases heffect with
    | table hpops hpushes =>
      rcases hcalls.1 with h | h
      · rw [hpops] at h
        cases h
      · rw [hpushes] at h
        cases h
    | ret hret => exact absurd hret hcalls.2
    | call _ htoken hsite => exact ⟨_, _, htoken, hsite⟩

/-- Depths that follow a closed relation fit. -/
theorem fits_of_closed (hfun : ∀ o x y, R o x → R o y → x = y) {d : Nat → UInt16}
    (hd : ∀ n i, Reachable code clauses n → code[n]? = some i → R i.offset (d n)) :
    Fits code clauses returnsValue callSites d := by
  -- the relation is closed under one step, and has one depth for each position
  have hstep : ∀ n i, Reachable code clauses n → code[n]? = some i →
      ∃ after, Passes (.of code clauses returnsValue callSites) i (d n) after ∧
        ∀ t ∈ successors i, R t (depthAfter i after) := by
    intro n i hn hi
    obtain ⟨after, hpasses, hnext⟩ :=
      hR.step i (Ground.mem_code.mpr (List.mem_of_getElem? hi)) (d n) (hd n i hn hi)
    exact ⟨after, hpasses, fun t ht => (hnext t ht).2⟩
  constructor
  case entry =>
    intro hpos
    have hi := List.getElem?_eq_getElem hpos
    exact hfun _ _ _ (hd 0 _ (.entry hpos) hi) (hR.start _ ((Ground.getElem?_code ..).trans hi))
  case handler =>
    rintro c hc n ⟨i, hi, hoffset⟩
    have hn := hd n i (.handler hc ⟨i, hi, hoffset⟩) hi
    exact hfun _ _ _ hn (hoffset ▸ (hR.handler c hc).2)
  case filter =>
    rintro c hc f hf n ⟨i, hi, hoffset⟩
    have hn := hd n i (.filter hc hf ⟨i, hi, hoffset⟩) hi
    exact hfun _ _ _ hn (hoffset ▸ (hR.filter c hc f hf).2)
  case enough =>
    intro n i pops pushes hn hi heffect
    obtain ⟨after, hpasses, -⟩ := hstep n i hn hi
    exact (hpasses.eq_of_effect heffect).1
  case edge =>
    rintro n i pops pushes hn hi heffect t ht m ⟨j, hj, hoffset⟩
    obtain ⟨after, hpasses, hnext⟩ := hstep n i hn hi
    have hm := hd m j (.step hn hi ht ⟨j, hj, hoffset⟩) hj
    rw [← (hpasses.eq_of_effect heffect).2]
    exact hfun _ _ _ hm (hoffset ▸ hnext t ht)
  case entered =>
    intro n i hn hi c hc htry
    obtain ⟨after, hpasses, -⟩ := hstep n i hn hi
    exact hpasses.entered.resolve_right fun hnot => hnot c hc htry
  case returned =>
    intro n i hn hi hret
    obtain ⟨after, hpasses, -⟩ := hstep n i hn hi
    exact depth_of_passes_return hpasses hret

/-- There are depths that fit if a closed relation has at most one for each position. -/
theorem Closed.exists_fits (hfun : ∀ o x y, R o x → R o y → x = y) :
    ∃ d, Fits code clauses returnsValue callSites d := by
  have hdepth : ∀ n, ∃ depth, ∀ i, Reachable code clauses n → code[n]? = some i →
      R i.offset depth := by
    intro n
    by_cases hn : Reachable code clauses n
    · obtain ⟨i, hi⟩ := hn.exists_instruction
      obtain ⟨depth, hdepth⟩ := hR.exists_depth hn hi
      refine ⟨depth, fun j _ hj => ?_⟩
      obtain rfl := Option.some.inj (hi.symm.trans hj)
      exact hdepth
    · exact ⟨0, fun _ h => absurd h hn⟩
  choose d hd using hdepth
  exact ⟨d, fits_of_closed hR hfun hd⟩

end FromClosed

/-! ### From depths to closed relations -/

/-- An instruction that control can reach can be passed with the depth that fits. -/
theorem Fits.passes {d : Nat → UInt16} (hfits : Fits code clauses returnsValue callSites d)
    {n : Nat} (hn : Reachable code clauses n) (hi : code[n]? = some i) {pops pushes : Nat}
    (heffect : Effect callSites returnsValue i pops pushes) :
    Passes (.of code clauses returnsValue callSites) i (d n)
      (d n - .ofNat pops + .ofNat pushes) := by
  refine ⟨?_, ?_, fun hflow => ?_⟩
  · by_cases hzero : d n = 0
    · exact .inl hzero
    · exact .inr fun c hc htry => hzero (hfits.entered n i hn hi c hc htry)
  · exact ⟨_, stackEffect_eq_ok_iff.mpr ⟨pops, pushes, heffect, rfl⟩,
      hfits.enough n i pops pushes hn hi heffect, rfl⟩
  · have hret := Opcode.eq_ret_of_flow hflow
    have hd := hfits.returned n i hn hi hret
    -- a return has the one effect, which takes all there is
    cases heffect with
    | table hpops => rw [pops_ret hret] at hpops; cases hpops
    | ret _ =>
      rw [hd]
      rcases returnsValue with - | - <;> rfl
    | call hcalls => exact absurd hret hcalls.2

/-- Depths that fit make a closed relation. -/
theorem closed_of_fits (hdistinct : (code.map Instruction.offset).Nodup)
    (hcomplete : Complete code clauses callSites) {d : Nat → UInt16}
    (hfits : Fits code clauses returnsValue callSites d) :
    Closed (.of code clauses returnsValue callSites) (FoundBy code clauses d) := by
  have hhas : ∀ {n : Nat} {o : Offset}, StandsAt code n o →
      (Ground.of code clauses returnsValue callSites).Has o := by
    rintro n o ⟨i, hi, rfl⟩
    exact ⟨i, Ground.mem_code.mpr (List.mem_of_getElem? hi), rfl⟩
  constructor
  case start =>
    intro i hi
    have hi' : code[0]? = some i := (Ground.getElem?_code ..).symm.trans hi
    have hpos := (List.getElem?_eq_some_iff.mp hi').1
    exact ⟨0, .entry hpos, ⟨i, hi', rfl⟩, hfits.entry hpos⟩
  case handler =>
    intro c hc
    obtain ⟨n, hn⟩ := hcomplete.needed _ (.handler hc)
    exact ⟨hhas hn, n, .handler hc hn, hn, hfits.handler c hc n hn⟩
  case filter =>
    intro c hc f hf
    obtain ⟨n, hn⟩ := hcomplete.needed _ (.filter hc hf)
    exact ⟨hhas hn, n, .filter hc hf hn, hn, hfits.filter c hc f hf n hn⟩
  case step =>
    rintro i hi _ ⟨n, hn, hstands, rfl⟩
    obtain ⟨m, hm⟩ := List.mem_iff_getElem?.mp (Ground.mem_code.mp hi)
    obtain rfl := hstands.unique hdistinct ⟨i, hm, rfl⟩
    obtain ⟨pops, pushes, heffect⟩ : ∃ pops pushes, Effect callSites returnsValue i pops pushes :=
      exists_effect (hcomplete.known n i hn hm)
    refine ⟨_, hfits.passes hn hm heffect, fun t ht => ?_⟩
    obtain ⟨k, hk⟩ := hcomplete.needed t (.successor hn hm ht)
    exact ⟨hhas hk, k, .step hn hm ht hk, hk, hfits.edge n i pops pushes hn hm heffect t ht k hk⟩

end Check

end CilProbe
