/-
CilProbe/Proofs/Probe/LargestCode.lean

Code of the largest size there is.  A protected range at its very end is accepted, since no
position lies behind it.  It has nowhere to go: whatever becomes of such a method is not
accepted (`checkBody_ne_ok_of_atVeryEnd`), so its depths are not kept.

There are such methods, and they can be instrumented (`depths_lost_at_very_end`): nothing but
long branches, each of them to itself.  Their short forms reach as well, so the code that comes
out is far from the largest size, whatever the probe adds to it.  The code has hundreds of
millions of instructions, so none of this is evaluated; all is said of any number of branches.
-/
import CilProbe.Proofs.Probe.Stack
import CilProbe.Proofs.Probe.Supported

namespace CilProbe

open Check

/-! ### Ranges at the very end -/

/-- A protected range at the very end comes to hold nothing, and the check does not accept what
was made of the body. -/
theorem checkBody_ne_ok_of_atVeryEnd {σ : Type} {source : TokenSource (StateM σ)}
    {request : ProbeRequest} {limit : Nat} {r : ProbedMethod} {s s' : σ} {body : MethodBody}
    {bytes : List UInt8}
    (h : (probe limit request source).run.run s = (.ok (.probed r), s'))
    (hread : request.read = .ok (body, bytes)) (hend : AtVeryEnd body bytes) (returnsValue : Bool)
    (callSites : Option CallSites) (report : Option StackReport) :
    checkBody r.body returnsValue callSites ≠ .ok report := by
  intro hcheck
  obtain ⟨_, _, code, enter, answerSlot, plan, c, hi⟩ := instrumented_of_probe h
  obtain ⟨rfl, rfl⟩ := Prod.mk.inj (Except.ok.inj (hi.read.symm.trans hread))
  obtain ⟨hlast, cl, hcl, htry⟩ := hend
  have hr := hi.relocated
  obtain ⟨new, hnew, hbytes, -, -, -, hclauses⟩ := hr.read
  have hlen : codeEnd 0 c.all = (codeBytes c.all).length := by
    rw [codeEnd_eq hr.encodable, Nat.zero_add]
  have hsize : (UInt32.ofNat (codeEnd 0 c.all)).toNat = codeEnd 0 c.all :=
    hr.toNat_ofNat (Nat.le_refl _)
  have hstructure := checkStructure_of_checkBody hnew hbytes hr.decode_all hcheck
  rw [← hlen, hclauses] at hstructure
  have hwell := (checkStructure_eq_ok_iff hr.contiguous hsize).mp hstructure
  obtain ⟨n, hplaced⟩ :=
    hwell.exists_placed (List.mem_append_left _ (List.mem_map_of_mem hcl))
  -- the range ended at the last position there is, which is where it started
  have htryEnd : cl.tryEnd = cl.tryOffset := by
    apply UInt32.toNat_inj.mp
    have htry : cl.tryOffset.toNat = Offset.last := by
      rw [htry, hlast]
      rfl
    rw [Clause.tryEnd, Offset.toNat_after, htry]
    exact Nat.min_eq_right (Nat.le_add_right _ _)
  apply hplaced.tryLength
  show Offset.distance (r.edge _ cl.tryOffset) (r.edge _ cl.tryEnd) = 0
  rw [htryEnd]
  apply UInt32.toNat_inj.mp
  rw [Offset.toNat_distance, Nat.sub_self]
  rfl

/-! ### Branches to themselves -/

theorem Opcode.info?_br :
    (⟨0x38⟩ : Opcode).info? =
      some ⟨0x38, "br", .branch, .unconditionalBranch, .slots 0, .slots 0⟩ := by
  decide +kernel

/-- A long branch to itself. -/
def spin (start : Nat) : Instruction Offset := ⟨.ofNat start, ⟨0x38⟩, .target (.ofNat start)⟩

theorem size_spin (start : Nat) : (spin start).size = 5 := by
  have hinfo : (spin start).opcode.info = _ := Opcode.info_of_info? Opcode.info?_br
  have hsize : (spin start).opcode.size = 1 := show (⟨0x38⟩ : Opcode).size = 1 by decide
  rw [Instruction.size_eq_width, hinfo, hsize]
  rfl

/-- As many of them, one behind the other. -/
def spins (start : Nat) : Nat → List (Instruction Offset)
  | 0 => []
  | n + 1 => spin start :: spins (start + 5) n

variable {start n : Nat} {i : Instruction Offset}

@[simp] theorem length_spins (start n : Nat) : (spins start n).length = n := by
  induction n generalizing start with
  | zero => rfl
  | succ n ih => rw [spins, List.length_cons, ih]

theorem codeEnd_spins (start n : Nat) : codeEnd start (spins start n) = start + 5 * n := by
  induction n generalizing start with
  | zero => rfl
  | succ n ih =>
    rw [spins, codeEnd, size_spin, ih]
    omega

theorem exists_of_mem_spins (hi : i ∈ spins start n) :
    ∃ k, i = spin k ∧ start ≤ k ∧ k + 5 ≤ start + 5 * n := by
  induction n generalizing start with
  | zero => cases hi
  | succ n ih =>
    rcases List.mem_cons.mp hi with rfl | hi
    · exact ⟨start, rfl, Nat.le_refl _, by omega⟩
    · obtain ⟨k, rfl, hle, hk⟩ := ih hi
      exact ⟨k, rfl, by omega, by omega⟩

theorem spin_of_mem (hi : i ∈ spins start n) :
    i.opcode = ⟨0x38⟩ ∧ i.operand = .target i.offset := by
  obtain ⟨k, rfl, -⟩ := exists_of_mem_spins hi
  exact ⟨rfl, rfl⟩

theorem countP_isBranch_spins (start n : Nat) :
    (spins start n).countP (fun i => i.opcode.isBranch) = n := by
  conv_rhs => rw [← length_spins start n]
  rw [List.countP_eq_length]
  intro i hi
  rw [(spin_of_mem hi).1]
  rfl

theorem contiguous_spins (hend : start + 5 * n ≤ Offset.last) :
    Contiguous start (spins start n) := by
  induction n generalizing start with
  | zero => trivial
  | succ n ih =>
    refine ⟨UInt32.toNat_ofNat_of_lt' (Nat.lt_succ_of_le ?_), ?_⟩
    · exact Nat.le_trans (Nat.le_add_right _ _) hend
    · rw [size_spin]
      exact ih (by omega)

/-- Each of them goes back over its own five bytes. -/
theorem encodable_spins (start n : Nat) :
    ∀ i ∈ spins start n, i.Encodable := by
  intro i hi
  obtain ⟨k, rfl, -⟩ := exists_of_mem_spins hi
  have hinfo : (spin k).opcode.info = _ := Opcode.info_of_info? Opcode.info?_br
  refine ⟨?_, ?_⟩
  · rw [hinfo]
    exact Opcode.info?_br
  · rw [hinfo, Instruction.stop, size_spin]
    show LongReach (((spin k).offset.toNat : Int) - ((spin k).offset.toNat + 5 : Nat))
    unfold LongReach
    omega

theorem decode_spins (hend : 5 * n ≤ Offset.last) :
    decode (codeBytes (spins 0 n)) = .ok (spins 0 n) :=
  decode_eq_ok_iff.mpr ⟨rfl, encodable_spins 0 n, contiguous_spins (by omega)⟩

theorem length_codeBytes_spins (hend : 5 * n ≤ Offset.last) :
    (codeBytes (spins 0 n)).length = 5 * n := by
  rw [← codeEnd_of_decode (decode_spins hend), codeEnd_spins, Nat.zero_add]

/-! ### Their short forms -/

namespace Draft.Shape

variable {body : MethodBody} {size : Offset} {method enter : Token} {d : Draft} {p : Parts}
  (h : Shape body (spins 0 n) size method enter none d p) (hend : 5 * n ≤ Offset.last)
include h hend

/-- Each branch goes to the node that it is. -/
theorem actOf_spin {k : NodeId} (hk : k ∈ p.order) :
    d.whole.actOf k = some ⟨⟨0x38⟩, .target (.node k)⟩ := by
  rw [h.order_eq_range, List.mem_range] at hk
  have hi := List.getElem?_eq_getElem hk
  obtain ⟨hopcode, hoperand⟩ := spin_of_mem (List.mem_of_getElem? hi)
  have hmove : moveTo (spins 0 n) (spins 0 n)[k].offset = .node k := by
    have hindex := (indexByOffset_eq_some (contiguous_spins (by omega))).mpr ⟨_, hi, rfl⟩
    rw [moveTo, hindex]
    rfl
  rw [h.actOf_instruction hi, Instruction.act, hopcode, hoperand]
  show some (Act.mk _ (Operand.target (moveTo _ _))) = _
  rw [hmove]
  rfl

theorem isBranch_spin {k : NodeId} (hk : k ∈ p.order) : d.whole.isBranch k = true := by
  rw [Listing.isBranch_eq, h.actOf_spin hend hk]
  rfl

/-- All branches reach in their short forms. -/
theorem valid_empty : d.whole.Valid ∅ := by
  refine ⟨Finset.empty_subset _, fun id hid _ => ?_⟩
  obtain ⟨hmem, hbranch⟩ := Listing.mem_branches.mp hid
  have horder := h.whole_order ▸ hmem
  rcases List.mem_append.mp horder with hentry | hcode
  · -- there is no branch in the probe
    obtain ⟨node, hnode, hacts⟩ := Listing.exists_of_map_actOf (l := d.whole) h.entry_acts hentry
    rw [Listing.isBranch_iff hnode, ← Opcode.isBranch_longForm] at hbranch
    exact absurd hbranch (Bool.eq_false_iff.mp (plain_entryActs _ _ _ _ hacts).isBranch)
  · exact Listing.reachesIn_self (h.actOf_spin hend hcode) hmem ∅

/-- The probe takes thirty bytes at most. -/
theorem extent_empty_le : d.whole.extent ∅ d.whole.order ≤ 30 + 2 * n := by
  have hentry : d.whole.extent ∅ d.entry ≤ 10 * 3 :=
    Nat.le_trans (Listing.extent_le_of_acts (l := d.whole) h.entry_acts ∅)
      (sum_room_le (plain_entryActs _ _ _))
  have hcode := Listing.extent_empty fun id => h.isBranch_spin hend (k := id)
  have hlength : p.order.length = n := by
    rw [h.order_eq_range, List.length_range, length_spins]
  rw [h.whole_order, Listing.extent_append, hcode, hlength]
  omega

end Draft.Shape

/-! ### A range at the very end -/

/-- The clause of `spinsRequest`: it protects the one position behind the largest code, which
is none. -/
def endClause : Clause := .finally_ 0xFFFFFFFF 1 0 5

/-- A body of branches to themselves. -/
def spinsSpec (n : Nat) : BodySpec where
  code := codeBytes (spins 0 n)
  fat := true
  clauses := [endClause]

/-- An entry probe for a method with such a body. -/
def spinsRequest (n : Nat) : ProbeRequest where
  method := ⟨0x06000001⟩
  body := (spinsSpec n).write.toOption.getD []
  signature := .static (.primitive .void) []
  locals := []
  isConstructor := false
  policy := ⟨true, false, false⟩

theorem clauses_spins (n : Nat) : (spinsSpec n).seen.clauses = [endClause] := rfl

section Largest

variable (hend : 5 * n = Offset.last)
include hend

theorem write_spins : (spinsSpec n).write = .ok (spinsRequest n).body := by
  show _ = Except.ok ((spinsSpec n).write.toOption.getD [])
  cases hwrite : (spinsSpec n).write with
  | ok data => rfl
  | error e =>
    rcases BodySpec.write_eq_error_iff.mp hwrite with ⟨hlong, -⟩ | ⟨-, hmany, -⟩
    · have hlength := length_codeBytes_spins (Nat.le_of_eq hend)
      exact absurd hlong (by show ¬_ < (codeBytes _).length; omega)
    · exact absurd hmany (by show ¬_ < _ + 1 * _; decide)

theorem wellStructured_spins : WellStructured (spins 0 n) 0xFFFFFFFF [endClause] := by
  have hend' : 5 * n = 0xFFFFFFFF := hend
  obtain ⟨m, rfl⟩ : ∃ m, n = m + 2 := ⟨n - 2, by omega⟩
  have hflow : ∀ i ∈ spins 0 (m + 2), i.opcode.info.flow.fallsThrough = false := by
    intro i hi
    rw [(spin_of_mem hi).1, Opcode.info_of_info? Opcode.info?_br]
    rfl
  constructor
  case last =>
    have hlast := List.getLast?_eq_some_getLast (l := spins 0 (m + 2)) (List.cons_ne_nil _ _)
    exact ⟨_, hlast, hflow _ (List.getLast_mem _)⟩
  case targets =>
    intro i hi t ht
    rw [(spin_of_mem hi).2] at ht
    exact ⟨i, hi, (List.mem_singleton.mp ht).symm⟩
  case placed =>
    intro c hc
    obtain rfl := List.mem_singleton.mp hc
    refine ⟨?_, by decide, by decide, by decide⟩
    have hfirst : AtBoundary (spins 0 (m + 2)) 0xFFFFFFFF 0 := .inl ⟨spin 0, by simp [spins], rfl⟩
    have hsecond : AtBoundary (spins 0 (m + 2)) 0xFFFFFFFF 5 := .inl ⟨spin 5, by simp [spins], rfl⟩
    have hlast : AtBoundary (spins 0 (m + 2)) 0xFFFFFFFF 0xFFFFFFFF := .inr rfl
    simp only [edges, List.forall_mem_cons]
    exact ⟨hlast, hlast, hfirst, hfirst, hsecond, by simp⟩
  case compatible => exact checkPairs_eq_ok.mp (by decide)

end Largest

section Walked

variable (returnsValue : Bool) (callSites : CallSites)

/-- A branch takes nothing from the stack and puts nothing on it. -/
theorem passes_spin {g : Ground} (hi : i ∈ spins start n) : Passes g i 0 0 := by
  have hact : i.act.opcode = ⟨0x38⟩ := by
    rw [Instruction.act, (spin_of_mem hi).1]
    rfl
  exact passes_of_idle hact Opcode.info?_br rfl rfl

/-- Control goes round and round at the first branch, with nothing on the stack. -/
theorem closed_spins (hn : 0 < n) :
    Closed (.of (spins 0 n) [endClause] returnsValue callSites) fun o d => o = 0 ∧ d = 0 := by
  obtain ⟨m, rfl⟩ := Nat.exists_eq_succ_of_ne_zero (Nat.ne_of_gt hn)
  have hfirst : (Ground.of (spins 0 (m + 1)) [endClause] returnsValue callSites).Has 0 :=
    ⟨spin 0, List.mem_toArray.mpr List.mem_cons_self, rfl⟩
  constructor
  case start =>
    intro i hi
    rw [Ground.getElem?_code] at hi
    obtain rfl : spin 0 = i := Option.some.inj hi
    exact ⟨rfl, rfl⟩
  case handler =>
    intro c hc
    obtain rfl := List.mem_singleton.mp hc
    exact ⟨hfirst, rfl, rfl⟩
  case filter =>
    intro c hc f hf
    obtain rfl := List.mem_singleton.mp hc
    cases hf
  case step =>
    rintro i hi depth ⟨hoffset, rfl⟩
    rw [Ground.mem_code] at hi
    refine ⟨0, passes_spin hi, fun t ht => ?_⟩
    have hnext : successors i = [0] := by
      rw [successors, (spin_of_mem hi).1, (spin_of_mem hi).2, hoffset,
        Opcode.info_of_info? Opcode.info?_br]
      rfl
    rw [hnext] at ht
    obtain rfl := List.mem_singleton.mp ht
    exact ⟨hfirst, rfl, ite_self _⟩

theorem simulateStack_spins (hend : 5 * n ≤ Offset.last) (hn : 0 < n) :
    ∃ report, simulateStack (spins 0 n) [endClause] returnsValue callSites = .ok report ∧
      report.maxDepth ≤ 0 := by
  have hcont : Contiguous 0 (spins 0 n) := contiguous_spins (by omega)
  have hbound : Walk.Bounds (.of (spins 0 n) [endClause] returnsValue callSites)
      (fun o d => o = 0 ∧ d = 0) 0 := by
    rintro i hi depth after ⟨-, rfl⟩ hpasses
    obtain rfl := (passes_spin (Ground.mem_code.mp hi)).unique hpasses
    exact ⟨UInt16.le_refl _, UInt16.le_refl _⟩
  obtain ⟨report, hwalked, -, hle⟩ := simulateStack_within (nodup_offsets hcont)
    (closed_spins returnsValue callSites hn) (fun _ _ _ hd hd' => hd.2.trans hd'.2.symm) hbound
  exact ⟨report, hwalked, hle⟩

end Walked

section Requests

variable (hend : 5 * n = Offset.last)
include hend

/-- The body is one that can be instrumented. -/
theorem instrumentable_spins :
    (spinsRequest n).Instrumentable (spinsSpec n).seen (codeBytes (spins 0 n)) (spins 0 n)
      .none := by
  have hend' : 5 * n = 0xFFFFFFFF := hend
  obtain ⟨hread, hcode⟩ := BodySpec.read_write (write_spins hend)
  have hlength := length_codeBytes_spins (Nat.le_of_eq hend)
  have hsize : (UInt32.ofNat (codeBytes (spins 0 n)).length) = 0xFFFFFFFF := by
    rw [hlength, hend']
    rfl
  have hcont : Contiguous 0 (spins 0 n) := contiguous_spins (by omega)
  exact {
    readBody := hread
    readCode := hcode
    nonempty := List.ne_nil_of_length_pos (by omega)
    decoded := decode_spins (Nat.le_of_eq hend)
    checked := by
      rw [clauses_spins, hsize]
      refine (checkStructure_eq_ok_iff hcont ?_).mpr (wellStructured_spins hend)
      rw [codeEnd_spins, Nat.zero_add, hend']
      rfl
    unfiltered := by
      rw [clauses_spins]
      exact fun c hc => List.mem_singleton.mp hc ▸ rfl
    wrappable := fun i hi => by
      rw [(spin_of_mem hi).1]
      decide
    readLocals := rfl
    localsToken := iff_of_true rfl ((spinsSpec n).localSignature?_seen.trans rfl)
    localsCount := by decide
    exit := nofun
    sized := by omega }

/-- It is accepted. -/
theorem checkBody_spins (returnsValue : Bool) (callSites : CallSites) :
    ∃ report, checkBody (spinsRequest n).body returnsValue (some callSites) =
      .ok (some report) := by
  have h := instrumentable_spins hend
  have hend' : 5 * n = 0xFFFFFFFF := hend
  obtain ⟨report, hwalked, hle⟩ :=
    simulateStack_spins returnsValue callSites (Nat.le_of_eq hend) (by omega)
  exact ⟨report, checkBody_some_eq_ok.mpr ⟨_, _, _, h.readBody, h.readCode, h.decoded, h.checked,
    hwalked, UInt16.le_trans hle (by decide : (0 : UInt16) ≤ 8)⟩⟩

/-- It is instrumented: in their short forms the branches take two bytes in place of five. -/
theorem probe_spins :
    ∃ r s', (probe (n + 1) (spinsRequest n) fixedSource).run.run () = (.ok (.probed r), s') := by
  have h := instrumentable_spins hend
  have hend' : 5 * n = 0xFFFFFFFF := hend
  have hfresh : isProbed (spins 0 n) ⟨0x06000001⟩ ⟨0x0A000001⟩ = false := by
    obtain ⟨m, rfl⟩ : ∃ m, n = m + 2 := ⟨n - 2, by omega⟩
    rfl
  have hfinish : ∀ {size plan d p}, Draft.Shape (spinsSpec n).seen (spins 0 n) size ⟨0x06000001⟩
      ⟨0x0A000001⟩ plan d p → plan.isSome = false →
        ∀ token, ∃ r, d.finish (max (n + 1) 1) token = .ok r := by
    intro size plan d p hp hplan token
    obtain rfl : plan = none := Option.isNone_iff_eq_none.mp (Option.isSome_eq_false_iff.mp hplan)
    refine hp.exists_finish_of_valid (contiguous_spins (by omega)) h.code_ne_nil
      (hp.valid_empty (Nat.le_of_eq hend)) ?_ ?_ ?_ token
    · exact Nat.le_trans (hp.extent_empty_le (Nat.le_of_eq hend)) (by omega)
    · rw [clauses_spins]
      decide
    · rw [countP_isBranch_spins]
      exact Nat.lt_of_lt_of_le (Nat.lt_succ_self n) (Nat.le_max_left _ _)
  obtain ⟨r, s', hrun, -⟩ :=
    exists_probed (s := ()) neverFails_fixedSource.serves h trivial rfl hfresh hfinish
  exact ⟨r, s', hrun⟩

theorem read_spins : (spinsRequest n).read = .ok ((spinsSpec n).seen, codeBytes (spins 0 n)) := by
  have h := instrumentable_spins hend
  exact ProbeRequest.read_eq_ok.mpr ⟨h.readBody, h.readCode, h.nonempty⟩

theorem atVeryEnd_spins : AtVeryEnd (spinsSpec n).seen (codeBytes (spins 0 n)) := by
  have hlength := length_codeBytes_spins (Nat.le_of_eq hend)
  refine ⟨hlength.trans hend, endClause, List.mem_singleton_self _, ?_⟩
  rw [hlength, hend]
  rfl

end Requests

/-- The call sites know the entry helper, and no other is asked for. -/
theorem helpersKnown_spins (n : Nat) :
    HelpersKnown helperCallSites fixedSource () (spinsRequest n) where
  enter := by
    intro enter s₁ h
    cases h
    rfl
  exit := nofun

/-- The largest code, of 858993459 branches to themselves and with a range at its very end: it
is accepted with known depths, and instrumented, and what comes out is not accepted. -/
theorem depths_lost_at_very_end :
    (∃ report, checkBody (spinsRequest 858993459).body (spinsRequest 858993459).returnsValue
        (some helperCallSites) = .ok (some report)) ∧
      HelpersKnown helperCallSites fixedSource () (spinsRequest 858993459) ∧
      ∃ r s', (probe 858993460 (spinsRequest 858993459) fixedSource).run.run () =
          (.ok (.probed r), s') ∧
        ∀ report, checkBody r.body (spinsRequest 858993459).returnsValue (some helperCallSites) ≠
          .ok (some report) := by
  have hend : 5 * 858993459 = Offset.last := rfl
  obtain ⟨r, s', hprobe⟩ := probe_spins hend
  refine ⟨checkBody_spins hend _ _, helpersKnown_spins _, r, s', hprobe, fun report => ?_⟩
  exact checkBody_ne_ok_of_atVeryEnd hprobe (read_spins hend) (atVeryEnd_spins hend) _ _ _

end CilProbe
