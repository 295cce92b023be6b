/-
CilProbe/Proofs/Signature/Ending.lean

Reading a signature comes to an end.  The readers of signatures are given the levels they may go
down and, in a parameter list, no more turns than there are bytes, so they end in any case.  Here
the same is read without these provisions: a type is told only how deep it lies, and a parameter
list goes on while there are too few parameters in it, which a mark does not change.  Such a run
need not end (`Running`).  It does end, and as the reader does (`TypeSig.run_eq_read`,
`MethodSig.run_eq_read`): a type that lies too deep is refused before it is looked at, every turn
of a parameter list takes a byte, and where the bytes have run out the next type fails.
-/
import Mathlib.Data.PFun
import CilProbe.Proofs.Signature.Locals
import CilProbe.Proofs.Signature.Progress

namespace CilProbe

/-! ### Runs that need not end -/

/-- A computation that reads as a `Reader` does, but need not come to an end; where it does not,
there is no outcome. -/
abbrev Running := ExceptT Error (StateT Cursor Part)

namespace Running

variable {α β : Type}

/-- Start a run at a cursor: its result and the cursor it stopped at, if it stops. -/
def start (run : Running α) (c : Cursor) : Part (Except Error α × Cursor) := run.run.run c

/-- A reader as a run, which ends. -/
def of (r : Reader α) : Running α := ExceptT.mk (StateT.mk fun c => Part.some (r.start c))

theorem ext {run run' : Running α} (h : ∀ c, run.start c = run'.start c) : run = run' := funext h

theorem of_bind_start (r : Reader α) (f : α → Running β) (c : Cursor) :
    (of r >>= f).start c =
      match r.start c with
      | (.ok a, c') => (f a).start c'
      | (.error e, c') => Part.some (.error e, c') := by
  show (Part.some (r.start c)).bind
    (fun x => (ExceptT.bindCont f x.1 : StateT Cursor Part _) x.2) = _
  rw [Part.bind_some]
  rcases r.start c with ⟨_ | _, _⟩ <;> rfl

/-- Runs in a row end, and as readers in a row do, if each of them does. -/
theorem bind_eq {run : Running α} {r : Reader α} {g : α → Running β} {f : α → Reader β}
    (hr : run = of r) (hf : ∀ a, g a = of (f a)) : (run >>= g) = of (r >>= f) := by
  refine ext fun c => ?_
  rw [hr, of_bind_start]
  show _ = Part.some ((r >>= f).start c)
  rw [Reader.start_bind]
  rcases r.start c with ⟨e | a, c'⟩
  · rfl
  · exact congrArg (fun run => run.start c') (hf a)

/-! ### Loops -/

/-- Do something `n` times more, after the results in `done`, latest first. -/
def timesAfter (run : Running α) : Nat → List α → Running (List α)
  | 0, done => pure done.reverse
  | n + 1, done => do
    let a ← run
    timesAfter run n (a :: done)

theorem timesAfter_eq {run : Running α} {r : Reader α} (h : run = of r) (n : Nat) :
    ∀ done, timesAfter run n done = of (r.timesAfter n done) := by
  induction n with
  | zero => exact fun done => rfl
  | succ n ih => exact fun done => bind_eq h fun a => ih (a :: done)

/-- One turn of a loop: it is over, or goes on from another state and another cursor. -/
def turn (p : α → Bool) (body : α → Running α) :
    α × Cursor →. (Except Error α × Cursor) ⊕ (α × Cursor) := fun x =>
  if p x.1 then
    ((body x.1).start x.2).map fun
      | (.ok a, c) => .inr (a, c)
      | (.error e, c) => .inl (.error e, c)
  else Part.some (.inl (.ok x.1, x.2))

/-- Go on while `p`. -/
def loop (p : α → Bool) (body : α → Running α) (a : α) : Running α :=
  ExceptT.mk (StateT.mk fun c => (turn p body).fix (a, c))

variable {p : α → Bool} {body : α → Running α} {a a' : α} {c c' : Cursor} {e : Error}

theorem loop_stop (hp : p a = false) : (loop p body a).start c = Part.some (.ok a, c) := by
  refine Part.eq_some_iff.mpr (PFun.fix_stop ?_)
  rw [turn, if_neg (by simp [hp])]
  exact Part.mem_some _

theorem loop_fail (hp : p a = true) (hbody : (body a).start c = Part.some (.error e, c')) :
    (loop p body a).start c = Part.some (.error e, c') := by
  refine Part.eq_some_iff.mpr (PFun.fix_stop ?_)
  rw [turn, if_pos hp, hbody, Part.map_some]
  exact Part.mem_some _

theorem loop_turn (hp : p a = true) (hbody : (body a).start c = Part.some (.ok a', c')) :
    (loop p body a).start c = (loop p body a').start c' := by
  refine PFun.fix_fwd_eq ?_
  rw [turn, if_pos hp, hbody, Part.map_some]
  exact Part.mem_some _

end Running

open Reader

/-! ### Parameter lists -/

namespace TypeSig

variable {run : Running TypeSig} {read : Reader TypeSig}

theorem countParams_reverse (ts : List TypeSig) : countParams ts.reverse = countParams ts :=
  List.countP_reverse

/-- One more parameter. -/
def runParam (run : Running TypeSig) (params : List TypeSig) : Running (List TypeSig) :=
  return params ++ [← run]

/-- Types up to the one with which there are `count` parameters. -/
def runParams (run : Running TypeSig) (count : Nat) (params : List TypeSig) :
    Running (List TypeSig) :=
  Running.loop (fun params => countParams params < count) (runParam run) params

theorem runParam_start (h : run = .of read) (params : List TypeSig) (c : Cursor) :
    (runParam run params).start c =
      Part.some ((read.start c).1.map fun t => params ++ [t], (read.start c).2) := by
  rw [runParam, h, Running.of_bind_start]
  rcases read.start c with ⟨_ | _, _⟩ <;> rfl

/-- A parameter list comes to an end if its types take bytes and fail where there are none: a
turn is not taken without a byte, and a turn that is taken leaves a byte less. -/
theorem runParams_start (h : run = .of read) (hmoves : Moves read fun n _ => 1 ≤ n)
    (hnil : ∀ pos, read.start ⟨pos, []⟩ = (.error .outOfBounds, ⟨pos, []⟩)) (count fuel : Nat) :
    ∀ (missing : Nat) (done : List TypeSig) (c : Cursor), countParams done + missing = count →
      c.rest.length ≤ fuel →
      (runParams run count done.reverse).start c =
        Part.some ((paramsAfter read fuel missing done).start c) := by
  have hneed : ∀ missing done, countParams done + missing = count →
      decide (countParams done.reverse < count) = decide (0 < missing) := by
    intro missing done hcount
    rw [countParams_reverse, decide_eq_decide]
    omega
  induction fuel with
  | zero =>
    rintro (- | missing) done c hcount hfuel
    · exact Running.loop_stop (hneed 0 done hcount)
    · obtain ⟨pos, rest⟩ := c
      obtain rfl := List.length_eq_zero_iff.mp (Nat.le_zero.mp hfuel)
      refine Running.loop_fail (hneed (missing + 1) done hcount) ?_
      rw [runParam_start h, hnil]
      rfl
  | succ fuel ih =>
    rintro (- | missing) done c hcount hfuel
    · exact Running.loop_stop (hneed 0 done hcount)
    · show _ = Part.some ((read >>= fun t =>
        paramsAfter read fuel (if t.isSentinel then missing + 1 else missing) (t :: done)).start c)
      rw [Reader.start_bind]
      obtain ⟨n, x, hn, hrun, hx⟩ := hmoves c
      rw [hrun]
      cases x with
      | error e =>
        refine Running.loop_fail (hneed (missing + 1) done hcount) ?_
        rw [runParam_start h, hrun]
        rfl
      | ok t =>
        have hpos := hx t rfl
        have hparam : (runParam run done.reverse).start c =
            Part.some (.ok (t :: done).reverse, c.advance n) := by
          rw [runParam_start h, hrun, List.reverse_cons]
          rfl
        refine Eq.trans ?_ (ih _ (t :: done) (c.advance n) ?_ ?_)
        · exact Running.loop_turn (hneed (missing + 1) done hcount) hparam
        · -- a mark leaves as many parameters missing as before
          rw [countParams_cons]
          cases t.isSentinel <;> simp <;> omega
        · rw [Cursor.length_rest_advance]
          omega

theorem start_readLevels_nil (levels pos : Nat) :
    (readLevels .any (levels + 1)).start ⟨pos, []⟩ = (.error .outOfBounds, ⟨pos, []⟩) := by
  rw [readLevels_succ, Reader.start_bind]
  rfl

theorem runParams_eq {levels : Nat} (h : run = .of (readLevels .any (levels + 1))) (count : Nat) :
    runParams run count [] = .of (readParams (readLevels .any (levels + 1)) count) := by
  refine Running.ext fun c => ?_
  refine runParams_start h ?_ (start_readLevels_nil levels) count _ count [] c ?_ (Nat.le_refl _)
  · exact (moves_levels _).mono fun n t ht => ht.pos
  · exact Nat.zero_add count

end TypeSig

/-! ### Types and signatures -/

/-- A method signature whose types are read by `run`. -/
def MethodSig.runWith (run : Running TypeSig) : Running MethodSig := do
  let convention ← Running.of Reader.byte
  if convention.toNat % kindRange = localsKind then throw (.malformed .localSignatureFound)
  else do
    let generics ← Running.of (readGenerics .any convention)
    let count ← Running.of Compressed.read
    let ret ← run
    let params ← TypeSig.runParams run count []
    return ⟨convention, generics, ret, params⟩

namespace TypeSig

/-- What follows the byte that starts a type; `inner` reads the types in it and `deeper` the
types in a function's signature. -/
def runAfter (inner deeper : Running TypeSig) : Lead → Running TypeSig
  | .pointer => return .pointer (← inner)
  | .byRef => return .byRef (← inner)
  | .vector => return .vector (← inner)
  | .pinned => return .pinned (← inner)
  | .valueType => return .valueType (← Running.of Compressed.readToken)
  | .classType => return .classType (← Running.of Compressed.readToken)
  | .typeVar => return .typeVar (← Running.of Compressed.read)
  | .methodVar => return .methodVar (← Running.of Compressed.read)
  | .sentinel => return .sentinel
  | .array => do
    let element ← inner
    let rank ← Running.of Compressed.read
    let sizes ← Running.of (readNumbers .any)
    return .array element rank sizes (← Running.of (readNumbers .any))
  | .instance_ => do
    let isValueType ← Running.of readInstanceKind
    let generic ← Running.of Compressed.readToken
    let count ← Running.of Compressed.read
    return .instance_ isValueType generic (← inner.timesAfter count [])
  | .function => do
    let s ← MethodSig.runWith deeper
    return .function s.convention s.generics s.ret s.params
  | .modified required => do
    let modifier ← Running.of Compressed.readToken
    return .modified required modifier (← inner)

/-- A type that lies `depth` levels deep; the types in a function's signature lie two levels
deeper than the function. -/
def run (depth : Nat) : Running TypeSig :=
  if nestingLimit < depth then throw (.malformed (.nestingTooDeep nestingLimit))
  else do
    let byte ← Running.of Reader.byte
    match Primitive.ofCode? byte with
    | some p => return .primitive p
    | none =>
      match Lead.ofCode? byte with
      | some lead => runAfter (run (depth + 1)) (run (depth + 2)) lead
      | none => throw (.malformed (.elementType byte))
termination_by nestingLimit + 1 - depth

end TypeSig

/-- A method signature. -/
def MethodSig.run : Running MethodSig := runWith (TypeSig.run 1)

theorem MethodSig.runWith_eq {run : Running TypeSig} {levels : Nat}
    (h : run = .of (TypeSig.readLevels .any levels)) :
    runWith run = .of (readWith .any (TypeSig.readLevels .any levels)) := by
  rw [readWith_eq]
  refine Running.bind_eq rfl fun convention => ?_
  split
  · rfl
  refine Running.bind_eq rfl fun generics => ?_
  refine Running.bind_eq rfl fun count => ?_
  cases levels with
  | zero =>
    -- the type that is returned fails before a parameter is looked for
    rw [h]
    refine Running.ext fun c => ?_
    rw [Running.of_bind_start]
    rfl
  | succ levels =>
    refine Running.bind_eq h fun ret => ?_
    exact Running.bind_eq (TypeSig.runParams_eq h count) fun params => rfl

namespace TypeSig

theorem runAfter_eq {inner deeper : Running TypeSig} {levels levels' : Nat}
    (hinner : inner = .of (readLevels .any levels))
    (hdeeper : deeper = .of (readLevels .any levels')) (l : Lead) :
    runAfter inner deeper l =
      .of (readAfter .any (readLevels .any levels) (readLevels .any levels') l) := by
  cases l with
  | pointer | byRef | vector | pinned => exact Running.bind_eq hinner fun t => rfl
  | valueType | classType | typeVar | methodVar => exact Running.bind_eq rfl fun n => rfl
  | sentinel => rfl
  | array =>
    refine Running.bind_eq hinner fun element => ?_
    refine Running.bind_eq rfl fun rank => ?_
    refine Running.bind_eq rfl fun sizes => ?_
    exact Running.bind_eq rfl fun lowerBounds => rfl
  | instance_ =>
    refine Running.bind_eq rfl fun isValueType => ?_
    refine Running.bind_eq rfl fun generic => ?_
    refine Running.bind_eq rfl fun count => ?_
    exact Running.bind_eq (Running.timesAfter_eq hinner count []) fun args => rfl
  | function => exact Running.bind_eq (MethodSig.runWith_eq hdeeper) fun s => rfl
  | modified required =>
    refine Running.bind_eq rfl fun modifier => ?_
    exact Running.bind_eq hinner fun t => rfl

/-- A type comes to an end, as the levels it may go down do. -/
theorem run_eq (levels : Nat) :
    ∀ depth, nestingLimit + 1 - depth = levels → run depth = .of (readLevels .any levels) := by
  -- the types in a function's signature lie two levels deeper
  induction levels using Nat.strongRecOn with
  | ind levels ih =>
    intro depth hdepth
    rw [run]
    cases levels with
    | zero =>
      rw [if_pos (by omega)]
      rfl
    | succ levels =>
      rw [if_neg (by omega), readLevels_succ]
      refine Running.bind_eq rfl fun b => ?_
      unfold readFrom
      cases Primitive.ofCode? b with
      | some p => rfl
      | none =>
        cases Lead.ofCode? b with
        | none => rfl
        | some l =>
          exact runAfter_eq (ih levels (by omega) (depth + 1) (by omega))
            (ih (levels - 1) (by omega) (depth + 2) (by omega)) l

theorem run_eq_read : run 0 = .of read := run_eq _ 0 rfl

end TypeSig

theorem MethodSig.run_eq_read : run = .of MethodSig.read := runWith_eq (TypeSig.run_eq _ 1 rfl)

/-! ### Locals -/

namespace Locals

variable {blob : List UInt8} {l : Locals} {c c' : Cursor}

/-- The locals between two positions in a signature. -/
def between (blob : List UInt8) (bounds : Nat × Nat × Nat) : Locals :=
  ⟨bounds.1, (blob.drop bounds.2.1).take (bounds.2.2 - bounds.2.1)⟩

/-- The locals in a signature, with the cursor behind them. -/
def readIn (blob : List UInt8) : Reader Locals :=
  if blob.isEmpty then return none else return between blob (← readBounds)

theorem parse_eq_result (blob : List UInt8) : parse blob = (readIn blob).result blob := by
  unfold parse readIn Reader.result
  split
  · rfl
  rw [Reader.start_bind]
  rcases readBounds.start (Cursor.start blob) with ⟨_ | ⟨count, start, stop⟩, c⟩
  · rfl
  · rfl

/-- The bounds of the types in a signature of locals. -/
def runBounds : Running (Nat × Nat × Nat) := do
  let lead ← Running.of Reader.byte
  if lead.toNat = MethodSig.localsKind then do
    let count ← Running.of Compressed.read
    let start ← Running.of Reader.position
    let _ ← (TypeSig.run 0).timesAfter count []
    let stop ← Running.of Reader.position
    return (count, start, stop)
  else throw (.malformed (.localsLead lead))

/-- The locals in a signature. -/
def runIn (blob : List UInt8) : Running Locals :=
  if blob.isEmpty then return none else return between blob (← runBounds)

theorem runBounds_eq : runBounds = .of readBounds := by
  rw [readBounds_eq]
  refine Running.bind_eq rfl fun lead => ?_
  split
  · refine Running.bind_eq rfl fun count => ?_
    refine Running.bind_eq rfl fun start => ?_
    refine Running.bind_eq (Running.timesAfter_eq TypeSig.run_eq_read count []) fun types => ?_
    exact Running.bind_eq rfl fun stop => rfl
  · rfl

theorem runIn_eq (blob : List UInt8) : runIn blob = .of (readIn blob) := by
  unfold runIn readIn
  split
  · rfl
  · exact Running.bind_eq runBounds_eq fun bounds => rfl

theorem moves_bounds : Moves readBounds fun n _ => 1 ≤ n := by
  rw [readBounds_eq]
  refine Moves.byte.bind fun n lead hn => ?_
  split
  · refine Compressed.moves_read.bind fun m count _ => ?_
    refine Moves.position.bind fun _ start _ => ?_
    refine (TypeSig.moves_times (TypeSig.moves_levels _) count).bind fun k _ _ => ?_
    exact Moves.position.bind_pure fun _ _ _ => by omega
  · exact .throw _

theorem moves_readIn (hblob : blob ≠ []) : Moves (readIn blob) fun n _ => 1 ≤ n := by
  unfold readIn
  rw [if_neg (by simpa using hblob)]
  exact moves_bounds.bind_pure fun _ _ hn => hn

/-- The bytes of the types end where the reader stands. -/
theorem length_types_le (h : (readIn blob).start c = (.ok l, c')) : l.types.length ≤ c'.pos := by
  unfold readIn at h
  split at h
  · obtain ⟨rfl, -⟩ := start_pure_eq_ok.mp h
    exact Nat.zero_le _
  obtain ⟨bounds, c₁, hbounds, h⟩ := start_bind_eq_ok.mp h
  obtain ⟨rfl, rfl⟩ := start_pure_eq_ok.mp h
  rw [readBounds_eq] at hbounds
  obtain ⟨lead, c₂, -, hbounds⟩ := start_bind_eq_ok.mp hbounds
  split at hbounds
  · obtain ⟨count, c₃, -, hbounds⟩ := start_bind_eq_ok.mp hbounds
    obtain ⟨start, c₄, -, hbounds⟩ := start_bind_eq_ok.mp hbounds
    obtain ⟨ts, c₅, -, hbounds⟩ := start_bind_eq_ok.mp hbounds
    obtain ⟨_, _, ⟨⟩, hbounds⟩ := start_bind_eq_ok.mp hbounds
    obtain ⟨⟨⟩, ⟨⟩⟩ := start_pure_eq_ok.mp hbounds
    exact Nat.le_trans (List.length_take_le _ _) (Nat.sub_le _ _)
  · cases hbounds

/-- The types of locals, which are kept as bytes, take no more bytes than `n`. -/
def Fit (n : Nat) (l : Locals) : Prop :=
  ∃ ts, (Reader.times l.count TypeSig.read).result l.types = .ok ts ∧
    TypeSig.FitAll (TypeSig.nestingLimit + 1) n ts

theorem Whole.fit (h : l.Whole) : l.Fit l.types.length := by
  obtain ⟨ts, hts⟩ := h.types
  have hrun := hts 0 []
  rw [List.append_nil] at hrun
  obtain ⟨n, x, hn, hrun', hx⟩ :=
    TypeSig.moves_times (TypeSig.moves_levels _) l.count (Cursor.start l.types)
  obtain rfl : x = .ok ts := congrArg Prod.fst (hrun'.symm.trans hrun)
  have hfit := hx ts rfl
  exact ⟨ts, congrArg Prod.fst hrun, Nat.le_trans hfit.nodesAll_le hn, hfit.depthAll_le⟩

end Locals

/-! ### Progress -/

variable {α : Type} {run : Running α} {r : Reader α} {Q : Nat → α → Prop} {bytes : List UInt8}
  {offset : Nat} {c : Cursor}

/-- From a cursor on some bytes, a run comes to an end, and with the outcome of a reader.  Where
it stops lies not before the cursor and not behind the bytes; an answer takes a byte at least,
and `Q` says of it what it takes. -/
def Ends (run : Running α) (r : Reader α) (bytes : List UInt8) (c : Cursor)
    (Q : Nat → α → Prop) : Prop :=
  ∃ x stop, run.start c = Part.some (x, ⟨stop, bytes.drop stop⟩) ∧
    r.start c = (x, ⟨stop, bytes.drop stop⟩) ∧ c.pos ≤ stop ∧ stop ≤ bytes.length ∧
    ∀ a, x = .ok a → c.pos < stop ∧ Q (stop - c.pos) a

theorem Ends.of_moves (hrun : run = .of r) (hr : Moves r Q) (hpos : ∀ {n a}, Q n a → 1 ≤ n)
    (hc : Cursor.seek bytes offset = .ok c) : Ends run r bytes c Q := by
  unfold Cursor.seek at hc
  split at hc
  · cases hc
  next hle =>
    obtain rfl := Except.ok.inj hc
    obtain ⟨n, x, hn, hstart, hx⟩ := hr ⟨offset, bytes.drop offset⟩
    have hstop : Cursor.advance ⟨offset, bytes.drop offset⟩ n =
        ⟨offset + n, bytes.drop (offset + n)⟩ := by
      unfold Cursor.advance
      rw [List.drop_drop]
    rw [hstop] at hstart
    rw [List.length_drop] at hn
    refine ⟨x, offset + n, ?_, hstart, Nat.le_add_right offset n, by omega, fun a ha => ?_⟩
    · rw [hrun, ← hstart]
      rfl
    · have hQ := hx a ha
      rw [Nat.add_sub_cancel_left]
      exact ⟨Nat.lt_add_of_pos_right (hpos hQ), hQ⟩

theorem Ends.mono {Q' : Nat → α → Prop} (h : Ends run r bytes c Q)
    (himp : ∀ a stop rest, r.start c = (.ok a, ⟨stop, rest⟩) → Q' (stop - c.pos) a) :
    Ends run r bytes c Q' := by
  obtain ⟨x, stop, hrun, hstart, hle, hstop, hx⟩ := h
  refine ⟨x, stop, hrun, hstart, hle, hstop, ?_⟩
  rintro a rfl
  exact ⟨(hx a rfl).1, himp a stop _ hstart⟩

/-- Wherever one starts to read a type, a method signature or, at their beginning, the locals in
some bytes, one comes to an end inside the bytes.  What is answered took a byte at least and as
many bytes as there are types in it, and none of the types is nested too deeply.  Where there are
no bytes at all there are no locals, and nothing is read. -/
theorem signatures_progress (hc : Cursor.seek bytes offset = .ok c) :
    Ends (TypeSig.run 0) TypeSig.read bytes c (TypeSig.Fits (TypeSig.nestingLimit + 1)) ∧
    Ends MethodSig.run MethodSig.read bytes c (MethodSig.Fits TypeSig.nestingLimit) ∧
    Locals.parse bytes = (Locals.readIn bytes).result bytes ∧
    (bytes ≠ [] →
      Ends (Locals.runIn bytes) (Locals.readIn bytes) bytes (Cursor.start bytes) Locals.Fit) ∧
    (bytes = [] →
      (Locals.runIn bytes).start (Cursor.start bytes) =
        Part.some (.ok .none, Cursor.start bytes)) := by
  refine ⟨?_, ?_, Locals.parse_eq_result bytes, fun hbytes => ?_, ?_⟩
  · exact .of_moves TypeSig.run_eq_read (TypeSig.moves_levels _) TypeSig.Fits.pos hc
  · exact .of_moves MethodSig.run_eq_read (MethodSig.moves_readWith (TypeSig.moves_levels _))
      MethodSig.Fits.pos hc
  · have hseek : Cursor.seek bytes 0 = .ok (Cursor.start bytes) := rfl
    refine (Ends.of_moves (Locals.runIn_eq bytes) (Locals.moves_readIn hbytes) id hseek).mono ?_
    intro l stop rest hstart
    have hparse : Locals.parse bytes = .ok l :=
      (Locals.parse_eq_result bytes).trans (congrArg Prod.fst hstart)
    obtain ⟨ts, hts, hfit⟩ := (Locals.whole_of_parse hparse).fit
    refine ⟨ts, hts, Nat.le_trans hfit.nodesAll_le ?_, hfit.depthAll_le⟩
    exact Locals.length_types_le hstart
  · rintro rfl
    rfl

/-- A local that points to a function with two parameters, a mark before each of them. -/
def markedLocal : List UInt8 := [0x07, 0x01, 0x1B, 0x05, 0x02, 0x01, 0x41, 0x0E, 0x41, 0x08]

/-- The type of this local has six types in it, for which there are eight bytes. -/
theorem signatures_progress_markedLocal :
    Cursor.seek markedLocal 2 = .ok ⟨2, markedLocal.drop 2⟩ ∧
    Ends (TypeSig.run 0) TypeSig.read markedLocal ⟨2, markedLocal.drop 2⟩
      (TypeSig.Fits (TypeSig.nestingLimit + 1)) ∧
    Ends (Locals.runIn markedLocal) (Locals.readIn markedLocal) markedLocal
      (Cursor.start markedLocal) Locals.Fit ∧
    ∃ t, TypeSig.read.start ⟨2, markedLocal.drop 2⟩ = (.ok t, ⟨10, []⟩) ∧ t.nodes = 6 ∧
      t.depth = 2 ∧ Locals.parse markedLocal = .ok ⟨1, markedLocal.drop 2⟩ := by
  have hseek : Cursor.seek markedLocal 2 = .ok ⟨2, markedLocal.drop 2⟩ := rfl
  obtain ⟨htype, -, -, hlocals, -⟩ := signatures_progress hseek
  refine ⟨hseek, htype, hlocals (by decide), ?_⟩
  exact ⟨.function 5 0 (.primitive .void)
    [.sentinel, .primitive .string, .sentinel, .primitive .i4], rfl, rfl, rfl, rfl⟩

/-- A parameter list that is to hold more than there will ever be, and has come to marks. -/
example : MethodSig.parse [0x05, 0xDF, 0xFF, 0xFF, 0xFF, 0x01, 0x41, 0x41, 0x08] =
    .error .outOfBounds := rfl

/-- No bytes at all are a signature of locals, in which not one byte is read. -/
theorem Locals.empty_consumes_nothing :
    ¬ ∀ (blob : List UInt8) (l : Locals) (c : Cursor), Locals.parse blob = .ok l →
      (Locals.readIn blob).start (Cursor.start blob) = (.ok l, c) → 1 ≤ c.pos := by
  intro h
  exact absurd (h [] .none (Cursor.start []) rfl rfl) (by decide)

end CilProbe
