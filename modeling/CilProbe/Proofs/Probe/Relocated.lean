/-
CilProbe/Proofs/Probe/Relocated.lean

The body that a draft is written as.  Its code is the code of the draft, laid out:
the entry probe, the image of every instruction of the method, and the tail, one
behind the other.  The offset map sends each old position to the position of the
image, targets and ends of clause ranges go where the map sends them, and the ends
of ranges that ended with the code go where the code of the method ends now
(`relocated_of_finish`).
-/
import CilProbe.Proofs.Body.RoundTrip
import CilProbe.Proofs.Code.Assemble
import CilProbe.Proofs.Probe.Shape

namespace CilProbe

/-! ### Old and new positions -/

namespace ProbedMethod

/-- The new position of an instruction. -/
def move (r : ProbedMethod) (offset : Offset) : Offset := (r.offsetMap.lookup offset).getD 0

/-- The new position of the end of a range; `behind` is where the code of the method
ends now. -/
def edge (r : ProbedMethod) (behind offset : Offset) : Offset :=
  (r.offsetMap.lookup offset).getD behind

end ProbedMethod

/-- A clause of the method, with the ends of its ranges moved. -/
def Clause.moved (edge : Offset → Offset) (c : Clause) : Clause :=
  { c with
    tryOffset := edge c.tryOffset
    tryLength := Offset.distance (edge c.tryOffset) (edge c.tryEnd)
    handlerOffset := edge c.handlerOffset
    handlerLength := Offset.distance (edge c.handlerOffset) (edge c.handlerEnd) }

/-- The code of an instrumented method, in its parts. -/
structure CodeParts where
  /-- The entry probe. -/
  entry : List (Instruction Offset)
  /-- What stands for each instruction of the method. -/
  images : List (List (Instruction Offset))
  /-- The catch handler. -/
  catch_ : List (Instruction Offset)
  /-- The finally handler. -/
  finally_ : List (Instruction Offset)
  /-- The epilogue. -/
  epilogue : List (Instruction Offset)

namespace CodeParts

/-- What stands for the code of the method. -/
def inner (c : CodeParts) : List (Instruction Offset) := c.images.flatten

/-- The whole code. -/
def all (c : CodeParts) : List (Instruction Offset) :=
  c.entry ++ (c.inner ++ (c.catch_ ++ (c.finally_ ++ c.epilogue)))

/-- Where the code of the method starts. -/
def innerStart (c : CodeParts) : Nat := codeEnd 0 c.entry

/-- Where it ends. -/
def innerEnd (c : CodeParts) : Nat := codeEnd c.innerStart c.inner

/-- Where the finally handler starts. -/
def finallyStart (c : CodeParts) : Nat := codeEnd c.innerEnd c.catch_

/-- Where the epilogue starts. -/
def epilogueStart (c : CodeParts) : Nat := codeEnd c.finallyStart c.finally_

/-- The clauses of the exit probe. -/
def exitClauses (c : CodeParts) (exceptionType : Option Token) : List Clause :=
  let start : Offset := .ofNat c.innerStart
  let behind : Offset := .ofNat c.innerEnd
  let finally_ : Offset := .ofNat c.finallyStart
  let epilogue : Offset := .ofNat c.epilogueStart
  (exceptionType.map fun type =>
    Clause.catch_ start (Offset.distance start behind) behind (Offset.distance behind finally_)
      type).toList ++
    [Clause.finally_ start (Offset.distance start finally_) finally_
      (Offset.distance finally_ epilogue)]

end CodeParts

/-- A body with some code was instrumented as `r`, whose code consists of the parts `c`. -/
structure Relocated (body : MethodBody) (code : List (Instruction Offset)) (size : Offset)
    (method enter : Token) (answerSlot : UInt16) (plan : Option ExitPlan) (r : ProbedMethod)
    (c : CodeParts) : Prop where
  read : ∃ body', MethodBody.read r.body = .ok body' ∧ body'.code r.body = .ok (codeBytes c.all) ∧
    body'.maxStack = r.maxStack ∧ body'.localsToken = r.localsToken ∧ body'.initLocals = true ∧
    body'.clauses = body.clauses.map (Clause.moved (r.edge (.ofNat c.innerEnd))) ++
      plan.elim [] fun q => c.exitClauses q.exceptionType
  encodable : ∀ i ∈ c.all, i.Encodable
  contiguous : Contiguous 0 c.all
  bounded : codeEnd 0 c.all ≤ Offset.last
  entry : c.entry.map Instruction.act = entryActs method enter answerSlot
  catch_ : c.catch_.map Instruction.act = plan.elim [] ExitPlan.catchActs
  finally_ : c.finally_.map Instruction.act = plan.elim [] (·.finallyActs answerSlot)
  epilogue : c.epilogue.map Instruction.act = plan.elim [] ExitPlan.epilogueActs
  count : c.images.length = code.length
  image : ∀ (k : Nat) (i : Instruction Offset), code[k]? = some i →
    ∃ j rest, c.images[k]? = some (j :: rest) ∧ j.offset = r.move i.offset ∧
      (j :: rest).map Instruction.act = imageActs plan r.move (.ofNat c.epilogueStart) i
  offsetMap : r.offsetMap = code.map fun i => (i.offset, r.move i.offset)
  targets : ∀ i ∈ code, ∀ t ∈ i.operand.targets, ∃ j ∈ code, j.offset = t
  edges : ∀ c ∈ body.clauses, ∀ o ∈ [c.tryOffset, c.tryEnd, c.handlerOffset, c.handlerEnd],
    (∃ j ∈ code, j.offset = o) ∨ o = size

/-! ### Positions in a layout -/

namespace Layout

variable {l : Listing} {layout : Layout}

/-- An instruction as written says what its node says. -/
theorem act_written {id : NodeId} {a : Act Binding} (h : l.actOf id = some a) :
    (written l layout id).act = a.map layout.target := by
  obtain ⟨n, hn, rfl⟩ := Option.map_eq_some_iff.mp h
  rw [Act.map_map]
  unfold Instruction.act Act.map
  rw [opcode_written hn, operand_written hn, longForm_form]
  rfl

theorem map_act_written {ids : List NodeId} {acts : List (Act Binding)}
    (h : ids.map l.actOf = acts.map some) :
    (ids.map (written l layout)).map Instruction.act = acts.map (Act.map layout.target) := by
  induction ids generalizing acts with
  | nil =>
    obtain rfl : acts = [] := by simpa using h.symm
    rfl
  | cons id ids ih =>
    rcases acts with - | ⟨a, acts⟩
    · cases h
    · obtain ⟨hid, hids⟩ := List.cons.inj h
      rw [List.map_cons, List.map_cons, act_written hid, ih hids, List.map_cons]

/-- The node behind some others is written where those end; behind the last one is
the end of the code. -/
theorem target_head? (hknown : l.Known) (h : Stands l layout 0 l.order)
    (hcont : Contiguous 0 (l.order.map (written l layout))) {before after : List NodeId}
    (horder : l.order = before ++ after) :
    layout.target (after.head?.elim .atEnd .node) =
      .ofNat (codeEnd 0 (before.map (written l layout))) := by
  rcases after with - | ⟨id, after⟩
  · show UInt32.ofNat layout.codeSize = _
    rw [codeSize_eq (hknown.knownIn _) h, horder, List.append_nil]
  · rw [horder, List.map_append] at hcont
    obtain ⟨-, hid, -⟩ := contiguous_append.mp hcont
    rw [← hid]
    exact UInt32.ofNat_toNat.symm

/-- The clause at the positions of a layout. -/
def clauseAt (layout : Layout) (b : Draft.BoundClause) : Clause where
  flags := b.flags
  tryOffset := layout.target b.tryStart
  tryLength := Offset.distance (layout.target b.tryStart) (layout.target b.tryEnd)
  handlerOffset := layout.target b.handlerStart
  handlerLength := Offset.distance (layout.target b.handlerStart) (layout.target b.handlerEnd)
  classOrFilter := b.classOrFilter

theorem placed_eq_ok (hb : Bounded layout) {lc : LabelledClause} {c : Clause}
    (h : Draft.placed l layout lc = .ok c) : c = layout.clauseAt (Draft.bound l lc) := by
  obtain ⟨tryStart, h₁, h⟩ := bind_eq_ok.mp h
  obtain ⟨tryEnd, h₂, h⟩ := bind_eq_ok.mp h
  obtain ⟨handlerStart, h₃, h⟩ := bind_eq_ok.mp h
  obtain ⟨handlerEnd, h₄, h⟩ := bind_eq_ok.mp h
  obtain rfl := pure_eq_ok.mp h
  have e₁ := toNat_target hb (resolve_eq_ok.mp h₁)
  have e₂ := toNat_target hb (resolve_eq_ok.mp h₂)
  have e₃ := toNat_target hb (resolve_eq_ok.mp h₃)
  have e₄ := toNat_target hb (resolve_eq_ok.mp h₄)
  subst e₁ e₂ e₃ e₄
  unfold clauseAt Draft.bound Offset.distance
  simp only [UInt32.ofNat_toNat]

theorem mapM_placed (hb : Bounded layout) {lcs : List LabelledClause} {cs : List Clause}
    (h : lcs.mapM (Draft.placed l layout) = .ok cs) :
    cs = (lcs.map (Draft.bound l)).map layout.clauseAt := by
  rw [mapM_eq_ok] at h
  induction h with
  | nil => rfl
  | cons hc _ ih => rw [List.map_cons, List.map_cons, ← ih, placed_eq_ok hb hc]

/-! ### The offset map -/

/-- A node of the code has moved from where it was to where it is written. -/
theorem mapM_moved {position : Nat} {ids : List NodeId} {ms : List (Option (Offset × Offset))}
    (hstands : Stands l layout position ids) (h : ids.mapM (Draft.moved l layout) = .ok ms) :
    ms = ids.map fun id => (l.originOf id).map (·, (written l layout id).offset) := by
  rw [mapM_eq_ok] at h
  induction h generalizing position with
  | nil => rfl
  | @cons id m ids ms hid _ ih =>
    obtain ⟨hoffset, n, hn, hrest⟩ := hstands
    obtain ⟨n', hn', hid⟩ := bind_eq_ok.mp hid
    obtain rfl : n = n' := Option.some.inj (hn.symm.trans (node_eq_ok.mp hn'))
    obtain rfl := pure_eq_ok.mp hid
    rw [List.map_cons, ← ih hrest, Listing.originOf_of_node hn, hoffset]
    unfold written
    rw [hoffset]
    rcases n.origin with - | origin <;> rfl

/-- Of each group of nodes only the first one was there before. -/
theorem filterMap_groups {code : List (Instruction Offset)} {groups : List (List NodeId)}
    {moved : NodeId → Option (Offset × Offset)} (move : Offset → Offset)
    (h : List.Forall₂ (fun (i : Instruction Offset) group => ∃ k rest, group = k :: rest ∧
      moved k = some (i.offset, move i.offset) ∧ ∀ m ∈ rest, moved m = none) code groups) :
    groups.flatten.filterMap moved = code.map fun i => (i.offset, move i.offset) := by
  induction h with
  | nil => rfl
  | cons hgroup _ ih =>
    obtain ⟨k, rest, rfl, hk, hrest⟩ := hgroup
    rw [List.flatten_cons, List.filterMap_append, List.filterMap_cons, hk, ih,
      List.filterMap_eq_nil_iff.mpr hrest]
    rfl

end Layout

/-- Looking up the position of an instruction finds where it went. -/
theorem lookup_map_offset {code : List (Instruction Offset)} {α : Type} (f : Offset → α)
    (offset : Offset) :
    (code.map fun i => (i.offset, f i.offset)).lookup offset =
      if ∃ i ∈ code, i.offset = offset then some (f offset) else none := by
  induction code with
  | nil => rfl
  | cons i code ih =>
    rw [List.map_cons, List.lookup_cons, ih]
    by_cases h : offset = i.offset
    · subst h
      simp
    · rw [beq_false_of_ne h]
      simp [Ne.symm h]

namespace Draft

/-! ### A draft as it is written -/

/-- The listing of a draft with the entry probe in front. -/
def whole (d : Draft) : Listing := d.listing.setOrder (d.entry ++ d.listing.order)

/-- The instructions that a layout makes of the parts of a draft. -/
def written (d : Draft) (layout : Layout) (p : Parts) : CodeParts :=
  let write := List.map (Layout.written d.whole layout)
  ⟨write d.entry, p.groups.map write, write p.catch_, write p.finally_, write p.epilogue⟩

theorem all_written (d : Draft) (layout : Layout) (p : Parts) :
    (d.written layout p).all = (d.entry ++ p.order).map (Layout.written d.whole layout) := by
  simp [written, CodeParts.all, CodeParts.inner, Parts.order, Parts.tail, List.map_flatten]

theorem finish_eq_ok {d : Draft} {limit : Nat} {token : Token} {r : ProbedMethod}
    (h : d.finish limit token = .ok r) :
    ∃ layout code moved clauses, Layout.of d.whole limit = .ok layout ∧
      assemble d.whole layout = .ok code ∧
      d.whole.order.mapM (Draft.moved d.whole layout) = .ok moved ∧
      d.clauses.mapM (placed d.whole layout) = .ok clauses ∧
      (⟨code, d.maxStack, some token, true, true, clauses⟩ : BodySpec).write = .ok r.body ∧
      r.offsetMap = moved.filterMap id ∧ r.localsToken = token ∧ r.maxStack = d.maxStack := by
  obtain ⟨layout, hlayout, h⟩ := bind_eq_ok.mp h
  obtain ⟨code, hcode, h⟩ := bind_eq_ok.mp h
  obtain ⟨moved, hmoved, h⟩ := bind_eq_ok.mp h
  obtain ⟨clauses, hclauses, h⟩ := bind_eq_ok.mp h
  obtain ⟨data, hdata, h⟩ := bind_eq_ok.mp h
  obtain rfl := pure_eq_ok.mp h
  exact ⟨layout, code, moved, clauses, hlayout, hcode, hmoved, hclauses, hdata, rfl, rfl, rfl⟩

section Written

variable {body : MethodBody} {code : List (Instruction Offset)} {size : Offset}
  {method enter : Token} {plan : Option ExitPlan} {d : Draft} {p : Parts} {layout : Layout}

theorem Shape.whole_order (h : Shape body code size method enter plan d p) :
    d.whole.order = d.entry ++ p.order := by
  show d.entry ++ d.listing.order = _
  rw [h.order]

/-- Where the parts of a draft go. -/
structure Placement (d : Draft) (p : Parts) (layout : Layout) : Prop where
  stands : Layout.Stands d.whole layout 0 (d.entry ++ p.order)
  contiguous : Contiguous 0 (d.written layout p).all
  bounded : Layout.Bounded layout

/-- A part goes where the code before it ends. -/
theorem Placement.target_head? (h : Placement d p layout)
    (hshape : Shape body code size method enter plan d p) (before after : List NodeId)
    (horder : d.entry ++ p.order = before ++ after) :
    layout.target (after.head?.elim .atEnd .node) =
      .ofNat (codeEnd 0 (before.map (Layout.written d.whole layout))) := by
  have hwhole := hshape.whole_order
  refine Layout.target_head? (l := d.whole) hshape.known ?_ ?_ (hwhole.trans horder)
  · rw [hwhole]
    exact h.stands
  · rw [hwhole, ← all_written]
    exact h.contiguous

theorem Placement.target_behind (h : Placement d p layout)
    (hshape : Shape body code size method enter plan d p) :
    layout.target p.behind = .ofNat (d.written layout p).innerEnd := by
  refine (h.target_head? hshape (d.entry ++ p.groups.flatten) p.tail
    (List.append_assoc ..).symm).trans ?_
  rw [List.map_append, codeEnd_append, List.map_flatten]
  rfl

theorem Placement.target_start (h : Placement d p layout)
    (hshape : Shape body code size method enter plan d p) (hcode : code ≠ []) :
    layout.target (.node 0) = .ofNat (d.written layout p).innerStart := by
  obtain ⟨i, code, rfl⟩ := List.exists_cons_of_ne_nil hcode
  obtain ⟨rest, hgroup, -⟩ := hshape.group 0 i rfl
  rcases hgroups : p.groups with - | ⟨group, groups⟩
  · rw [hgroups] at hgroup
    cases hgroup
  · rw [hgroups] at hgroup
    obtain rfl := Option.some.inj hgroup
    have := h.target_head? hshape d.entry p.order rfl
    rw [Parts.order, hgroups] at this
    exact this

theorem Placement.target_finallyStart (h : Placement d p layout)
    (hshape : Shape body code size method enter plan d p) (hfinally : p.finally_ ≠ []) :
    layout.target p.finallyStart = .ofNat (d.written layout p).finallyStart := by
  obtain ⟨k, rest, hk⟩ := List.exists_cons_of_ne_nil hfinally
  have hstart := h.target_head? hshape (d.entry ++ (p.groups.flatten ++ p.catch_))
    (p.finally_ ++ p.epilogue) (by simp [Parts.order, Parts.tail])
  rw [List.map_append, List.map_append, codeEnd_append, codeEnd_append, List.map_flatten] at hstart
  rw [hk] at hstart
  rw [Parts.finallyStart, hk]
  exact hstart

theorem Placement.target_epilogueStart (h : Placement d p layout)
    (hshape : Shape body code size method enter plan d p) (hepilogue : p.epilogue ≠ []) :
    layout.target p.epilogueStart = .ofNat (d.written layout p).epilogueStart := by
  obtain ⟨k, rest, hk⟩ := List.exists_cons_of_ne_nil hepilogue
  have hstart := h.target_head? hshape
    (d.entry ++ (p.groups.flatten ++ (p.catch_ ++ p.finally_))) p.epilogue
    (by simp [Parts.order, Parts.tail])
  rw [List.map_append, List.map_append, List.map_append, codeEnd_append, codeEnd_append,
    codeEnd_append, List.map_flatten] at hstart
  rw [hk] at hstart
  rw [Parts.epilogueStart, hk]
  exact hstart

/-! ### Where instructions go -/

/-- The entries of the offset map: each instruction of the method, and where the node
that stands for it is written. -/
theorem Placement.offsetMap (h : Placement d p layout)
    (hshape : Shape body code size method enter plan d p) (hcont : Contiguous 0 code)
    {ms : List (Option (Offset × Offset))}
    (hmoved : (d.entry ++ p.order).mapM (Draft.moved d.whole layout) = .ok ms) :
    ms.filterMap id = code.map fun i => (i.offset, layout.target (moveTo code i.offset)) := by
  rw [Layout.mapM_moved h.stands hmoved, List.filterMap_map, Parts.order, List.filterMap_append,
    List.filterMap_append]
  -- nodes that were added stand for no instruction
  have hadded : ∀ ids : List NodeId, (∀ id ∈ ids, id ∈ d.entry ++ p.tail) →
      ids.filterMap (id ∘ fun id =>
        (d.whole.originOf id).map (·, (Layout.written d.whole layout id).offset)) = [] := by
    intro ids hids
    refine List.filterMap_eq_nil_iff.mpr fun k hk => ?_
    show (d.listing.originOf k).map _ = none
    rw [hshape.added k (hids k hk)]
    rfl
  rw [hadded d.entry fun k hk => List.mem_append_left _ hk,
    hadded p.tail fun k hk => List.mem_append_right _ hk, List.nil_append, List.append_nil]
  refine Layout.filterMap_groups (fun o => layout.target (moveTo code o)) ?_
  refine List.forall₂_iff_get.mpr ⟨hshape.count.symm, fun k hk hk' => ?_⟩
  obtain ⟨rest, hgroup, -, horigin, hrest⟩ :=
    hshape.group k code[k] (List.getElem?_eq_getElem hk)
  refine ⟨k, rest, ?_, ?_, fun m hm => ?_⟩
  · rw [List.getElem?_eq_getElem hk'] at hgroup
    exact Option.some.inj hgroup
  · show (d.listing.originOf k).map _ = _
    rw [horigin, List.get_eq_getElem, moveTo,
      (indexByOffset_eq_some hcont).mpr ⟨_, List.getElem?_eq_getElem hk, rfl⟩]
    rfl
  · show (d.listing.originOf m).map _ = none
    rw [hrest m hm]
    rfl

section Moves

variable {r : ProbedMethod}

/-- An instruction goes where its node is written. -/
theorem move_eq
    (hmap : r.offsetMap = code.map fun i => (i.offset, layout.target (moveTo code i.offset)))
    {i : Instruction Offset} (hi : i ∈ code) :
    r.move i.offset = layout.target (moveTo code i.offset) := by
  rw [ProbedMethod.move, hmap, lookup_map_offset fun o => layout.target (moveTo code o),
    if_pos ⟨i, hi, rfl⟩]
  rfl

/-- The end of a range goes where its label is. -/
theorem edge_eq (hcont : Contiguous 0 code)
    (hmap : r.offsetMap = code.map fun i => (i.offset, layout.target (moveTo code i.offset)))
    (behind : Binding) (offset : Offset) :
    layout.target (edgeTo code behind offset) = r.edge (layout.target behind) offset := by
  rw [ProbedMethod.edge, hmap, lookup_map_offset fun o => layout.target (moveTo code o), edgeTo]
  rcases hindex : (indexByOffset code)[offset]? with - | k
  · have hnone := (indexByOffset_eq_none hcont).mp hindex
    rw [if_neg fun ⟨i, hi, heq⟩ => hnone i hi heq]
    rfl
  · obtain ⟨i, hi, heq⟩ := (indexByOffset_eq_some hcont).mp hindex
    rw [if_pos ⟨i, List.mem_of_getElem? hi, heq⟩, moveTo, hindex]
    rfl

/-- The clauses of the method, at the positions of a layout. -/
theorem clauseAt_boundBy (hcont : Contiguous 0 code)
    (hmap : r.offsetMap = code.map fun i => (i.offset, layout.target (moveTo code i.offset)))
    (behind : Binding) (c : Clause) :
    layout.clauseAt (boundBy (edgeTo code behind) c) =
      c.moved (r.edge (layout.target behind)) := by
  unfold Layout.clauseAt boundBy Clause.moved
  simp only [edge_eq hcont hmap]

/-- The clauses of the exit probe, at the positions of a layout. -/
theorem Placement.clauseAt_exitBound (h : Placement d p layout)
    (hshape : Shape body code size method enter plan d p) (hcode : code ≠ [])
    (hfinally : p.finally_ ≠ []) (hepilogue : p.epilogue ≠ []) (exceptionType : Option Token) :
    (exitBound exceptionType (.node 0) p).map layout.clauseAt =
      (d.written layout p).exitClauses exceptionType := by
  unfold exitBound CodeParts.exitClauses
  simp only [← h.target_start hshape hcode, ← h.target_behind hshape,
    ← h.target_finallyStart hshape hfinally, ← h.target_epilogueStart hshape hepilogue]
  rcases exceptionType with - | type <;> rfl

end Moves

/-! ### The body -/

/-- The act of the code that an instruction becomes only depends on where its targets
go. -/
theorem imageActs_congr {τ : Type} {move move' : Offset → τ} {epilogue epilogue' : τ}
    {i : Instruction Offset} (hmove : ∀ t ∈ i.operand.targets, move t = move' t)
    (hepilogue : plan.isSome → epilogue = epilogue') :
    imageActs plan move epilogue i = imageActs plan move' epilogue' i := by
  have hact : i.act.map move = i.act.map move' := by
    unfold Instruction.act Act.map
    simp only [Operand.map_congr hmove]
  unfold imageActs
  rcases plan with - | q
  · rw [hact]
  · rw [hact, hepilogue rfl]

/-- With an exit probe there is a handler, and an epilogue. -/
theorem Shape.tail_ne_nil (hshape : Shape body code size method enter plan d p)
    (hplan : plan.isSome) : p.finally_ ≠ [] ∧ p.epilogue ≠ [] := by
  obtain ⟨q, rfl⟩ := Option.isSome_iff_exists.mp hplan
  constructor
  · intro hnil
    have hacts := hshape.finally_acts
    rw [hnil] at hacts
    simp [ExitPlan.finallyActs] at hacts
  · intro hnil
    have hacts := hshape.epilogue_acts
    rw [hnil] at hacts
    simp [ExitPlan.epilogueActs] at hacts

section Finished

variable {r : ProbedMethod} (h : Placement d p layout)
  (hshape : Shape body code size method enter plan d p) (hcont : Contiguous 0 code)
  (hmap : r.offsetMap = code.map fun i => (i.offset, layout.target (moveTo code i.offset)))
include h hshape hcont hmap

/-- The clauses of a draft, at the positions of a layout. -/
theorem Placement.clauses_placed (hcode : code ≠ []) :
    (d.clauses.map (bound d.listing)).map layout.clauseAt =
      body.clauses.map (Clause.moved (r.edge (.ofNat (d.written layout p).innerEnd))) ++
        plan.elim [] fun q => (d.written layout p).exitClauses q.exceptionType := by
  rw [hshape.clauses, List.map_append, List.map_map]
  congr 1
  · rw [← h.target_behind hshape]
    exact List.map_congr_left fun c _ => clauseAt_boundBy hcont hmap p.behind c
  · rcases plan with - | q
    · rfl
    · obtain ⟨hfinally, hepilogue⟩ := hshape.tail_ne_nil rfl
      exact h.clauseAt_exitBound hshape hcode hfinally hepilogue _

/-- What stands for an instruction of the method is written where the instruction goes. -/
theorem Placement.image_written {k : Nat} {i : Instruction Offset} (hi : code[k]? = some i) :
    ∃ j rest, (d.written layout p).images[k]? = some (j :: rest) ∧
      j.offset = r.move i.offset ∧
      (j :: rest).map Instruction.act =
        imageActs plan r.move (.ofNat (d.written layout p).epilogueStart) i := by
  obtain ⟨rest, hgroup, hacts, -⟩ := hshape.group k i hi
  refine ⟨Layout.written d.whole layout k, rest.map (Layout.written d.whole layout), ?_, ?_, ?_⟩
  · show (p.groups.map _)[k]? = _
    rw [List.getElem?_map, hgroup]
    rfl
  · rw [move_eq hmap (List.mem_of_getElem? hi), moveTo,
      (indexByOffset_eq_some hcont).mpr ⟨i, hi, rfl⟩]
    rfl
  · refine (Layout.map_act_written (l := d.whole) hacts).trans ?_
    rw [imageActs_map]
    refine imageActs_congr (fun t ht => ?_) fun hplan =>
      h.target_epilogueStart hshape (hshape.tail_ne_nil hplan).2
    obtain ⟨k', hk'⟩ := hshape.targets i (List.mem_of_getElem? hi) t ht
    obtain ⟨j, hj, rfl⟩ := (indexByOffset_eq_some hcont).mp hk'
    exact (move_eq hmap (List.mem_of_getElem? hj)).symm

end Finished

/-- Writing a draft gives the code of the method, moved. -/
theorem relocated_of_finish (hshape : Shape body code size method enter plan d p)
    (hcont : Contiguous 0 code) (hcode : code ≠ []) {limit : Nat} {token : Token}
    {r : ProbedMethod} (h : d.finish limit token = .ok r) :
    r.maxStack = d.maxStack ∧ r.localsToken = token ∧
      ∃ c, Relocated body code size method enter d.answerSlot plan r c := by
  obtain ⟨layout, bytes, moved, clauses, hlayout, hbytes, hmoved, hclauses, hdata, hmap, htoken,
    hstack⟩ := finish_eq_ok h
  have horder := hshape.whole_order
  have hnodup : d.whole.order.Nodup := by
    rw [horder]
    exact hshape.nodup
  obtain ⟨hstands, hbounded⟩ := Layout.stands_of hnodup hlayout
  obtain ⟨hbytes, hencodable, hcontiguous⟩ :=
    assembled hnodup (hshape.known.knownIn _) hlayout hbytes
  rw [horder] at hstands hencodable hbytes hcontiguous hmoved
  rw [← all_written] at hbytes hcontiguous
  -- all that follows is read off the layout: where each node stands is known
  have hplaced : Placement d p layout := ⟨hstands, hcontiguous, hbounded⟩
  have hencodable : ∀ i ∈ (d.written layout p).all, i.Encodable := by
    rw [all_written]
    exact List.forall_mem_map.mpr hencodable
  have hmap := hmap.trans (hplaced.offsetMap hshape hcont hmoved)
  obtain ⟨hread, hreadCode⟩ := BodySpec.read_write hdata
  refine ⟨hstack, htoken, d.written layout p, ?_⟩
  exact {
    read := by
      refine ⟨_, hread, hreadCode.trans (by rw [hbytes]), ?_⟩
      refine ⟨hstack.symm, htoken.symm, rfl, ?_⟩
      show clauses = _
      rw [Layout.mapM_placed hbounded hclauses]
      exact hplaced.clauses_placed hshape hcont hmap hcode
    encodable := hencodable
    contiguous := hcontiguous
    bounded := by
      rw [all_written, ← Layout.codeSize_eq (l := d.whole) (hshape.known.knownIn _) hstands]
      exact hbounded.1
    entry := by
      rw [← entryActs_map layout.target]
      exact Layout.map_act_written hshape.entry_acts
    catch_ := by
      refine (Layout.map_act_written hshape.catch_acts).trans ?_
      rcases plan with - | q
      · rfl
      · exact q.catchActs_map layout.target
    finally_ := by
      refine (Layout.map_act_written hshape.finally_acts).trans ?_
      rcases plan with - | q
      · rfl
      · exact q.finallyActs_map layout.target d.answerSlot
    epilogue := by
      refine (Layout.map_act_written hshape.epilogue_acts).trans ?_
      rcases plan with - | q
      · rfl
      · exact q.epilogueActs_map layout.target
    count := by
      show (p.groups.map _).length = _
      rw [List.length_map, hshape.count]
    image := fun k i hi => hplaced.image_written hshape hcont hmap hi
    offsetMap := by
      rw [hmap]
      exact List.map_congr_left fun i hi => by rw [move_eq hmap hi]
    targets := fun i hi t ht => (exists_indexByOffset_iff hcont).mp (hshape.targets i hi t ht)
    edges := fun c hc o ho =>
      (hshape.edges c hc o ho).imp_left (exists_indexByOffset_iff hcont).mp }

end Written

end Draft

end CilProbe
