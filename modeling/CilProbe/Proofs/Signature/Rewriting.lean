/-
CilProbe/Proofs/Signature/Rewriting.lean

Signatures are written anew as they were read.  Not every signature that can be read has
this property: a number may stand in a longer form than it needs, and the row of a coded
token may be too large for a token.  The readers with `Numerals.strict` are the ordinary
ones with a check of just that before each number and each token; where they get to the
end, they have read what the ordinary ones read (`readLevels_refines`), and writing it
gives back the bytes between the two ends (`rewrites_levels`).

The induction follows the readers, not the types: each level reads by the two levels below
it, a parameter list is read up to the parameter that makes it complete, and a mark on the
way is kept in the list without being counted.  Main result: `signature_rewritten`.
-/
import CilProbe.Proofs.Signature.RoundTrip

namespace CilProbe

open Reader

/-! ### Strict readers -/

/-- Whether all numbers in the type at a cursor stand in their shortest form and all tokens
have a row that fits: the reader that looks at each of them first gets through. -/
def TypeSig.StandsStrict (c : Cursor) : Prop :=
  ∃ t c', (readLevels .strict (nestingLimit + 1)).start c = (.ok t, c')

/-- The same for a method signature. -/
def MethodSig.StandsStrict (c : Cursor) : Prop :=
  ∃ s c', (readWith .strict (TypeSig.readLevels .strict TypeSig.nestingLimit)).start c =
    (.ok s, c')

section

variable {number token : Cursor → Bool} {inner inner' deeper deeper' read read' : Reader TypeSig}

namespace TypeSig

theorem readNumbers_refines : Refines (readNumbers (.guarded number token)) (readNumbers .any) :=
  (Numerals.refines_number number token).bind fun n =>
    (Numerals.refines_number number token).times n

theorem paramsAfter_refines (h : Refines read read') (fuel : Nat) :
    ∀ missing done, Refines (paramsAfter read fuel missing done)
      (paramsAfter read' fuel missing done) := by
  induction fuel with
  | zero =>
    intro missing done
    cases missing with
    | zero => exact .refl _
    | succ missing => exact .refl _
  | succ fuel ih =>
    intro missing done
    cases missing with
    | zero => exact .refl _
    | succ missing => exact h.bind fun t => ih _ (t :: done)

theorem readParams_refines (h : Refines read read') (count : Nat) :
    Refines (readParams read count) (readParams read' count) :=
  (Refines.refl get).bind fun c => paramsAfter_refines h c.remaining count []

end TypeSig

namespace MethodSig

theorem readGenerics_refines (convention : UInt8) :
    Refines (readGenerics (.guarded number token) convention) (readGenerics .any convention) := by
  unfold readGenerics
  split
  · exact Numerals.refines_number number token
  · exact .refl _

theorem readTypes_refines (h : Refines read read') (convention : UInt8) (generics : Nat) :
    Refines (readTypes (.guarded number token) read convention generics)
      (readTypes .any read' convention generics) := by
  refine (Numerals.refines_number number token).bind fun count => ?_
  refine h.bind fun ret => ?_
  exact (TypeSig.readParams_refines h count).bind_same _

theorem readWith_refines (h : Refines read read') :
    Refines (readWith (.guarded number token) read) (readWith .any read') := by
  rw [readWith_eq, readWith_eq]
  refine (Refines.refl Reader.byte).bind fun convention => ?_
  split
  · exact .refl _
  · refine (readGenerics_refines convention).bind fun generics => ?_
    exact readTypes_refines h convention generics

end MethodSig

namespace TypeSig

theorem readAfter_refines (hinner : Refines inner inner') (hdeeper : Refines deeper deeper')
    (l : Lead) :
    Refines (readAfter (.guarded number token) inner deeper l) (readAfter .any inner' deeper' l) := by
  have hnumber := Numerals.refines_number number token
  have htoken := Numerals.refines_token number token
  cases l with
  | pointer => exact hinner.bind_same _
  | byRef => exact hinner.bind_same _
  | vector => exact hinner.bind_same _
  | pinned => exact hinner.bind_same _
  | valueType => exact htoken.bind_same _
  | classType => exact htoken.bind_same _
  | typeVar => exact hnumber.bind_same _
  | methodVar => exact hnumber.bind_same _
  | sentinel => exact .refl _
  | array =>
    refine hinner.bind fun element => ?_
    refine hnumber.bind fun rank => ?_
    refine readNumbers_refines.bind fun sizes => ?_
    exact readNumbers_refines.bind_same _
  | instance_ =>
    refine (Refines.refl readInstanceKind).bind fun isValueType => ?_
    refine htoken.bind fun generic => ?_
    refine hnumber.bind fun count => ?_
    exact (hinner.times count).bind_same _
  | function => exact (MethodSig.readWith_refines hdeeper).bind_same _
  | modified required =>
    refine htoken.bind fun modifier => ?_
    exact hinner.bind_same _

theorem readFrom_refines (hinner : Refines inner inner') (hdeeper : Refines deeper deeper')
    (b : UInt8) :
    Refines (readFrom (.guarded number token) inner deeper b) (readFrom .any inner' deeper' b) := by
  unfold readFrom
  cases Primitive.ofCode? b with
  | some p => exact .refl _
  | none =>
    cases Lead.ofCode? b with
    | some l => exact readAfter_refines hinner hdeeper l
    | none => exact .refl _

/-- A check of the numbers and tokens changes nothing else about a reader. -/
theorem readLevels_refines (levels : Nat) :
    Refines (readLevels (.guarded number token) levels) (readLevels .any levels) := by
  induction levels using Nat.strongRecOn with
  | ind levels ih =>
    cases levels with
    | zero => exact .refl _
    | succ levels =>
      rw [readLevels_succ, readLevels_succ]
      refine (Refines.refl Reader.byte).bind fun b => ?_
      exact readFrom_refines (ih levels (by omega)) (ih (levels - 1) (by omega)) b

end TypeSig

end

/-! ### What strict readers read is what is written -/

namespace TypeSig

variable {read inner deeper : Reader TypeSig} {c c' : Cursor}

theorem rewrites_numbers : Rewrites (readNumbers .strict) .numbers := by
  intro c c' ns h
  obtain ⟨n, c₁, hn, hns⟩ := start_bind_eq_ok.mp h
  obtain ⟨rfl, hspan⟩ := Numerals.rewrites_number.times hns
  exact (Numerals.rewrites_count hn).trans hspan

theorem spans_instanceKind {isValueType : Bool}
    (h : readInstanceKind.start c = (.ok isValueType, c')) :
    Spans c c' (.ok [if isValueType then Lead.valueType.code else Lead.classType.code]) := by
  obtain ⟨b, c₁, hb, h⟩ := start_bind_eq_ok.mp h
  have hspan := Spans.byte hb
  by_cases hclass : (b == Lead.classType.code) = true
  · rw [if_pos hclass] at h
    obtain ⟨rfl, rfl⟩ := start_pure_eq_ok.mp h
    rw [beq_iff_eq.mp hclass] at hspan
    exact hspan
  rw [if_neg hclass] at h
  by_cases hvalue : (b == Lead.valueType.code) = true
  · rw [if_pos hvalue] at h
    obtain ⟨rfl, rfl⟩ := start_pure_eq_ok.mp h
    rw [beq_iff_eq.mp hvalue] at hspan
    exact hspan
  · rw [if_neg hvalue] at h
    cases h

/-- However many marks stand between the parameters, the list that is read holds as many
parameters as were asked for. -/
theorem spans_paramsAfter (hread : Rewrites read write) (fuel : Nat) :
    ∀ {missing : Nat} {done params : List TypeSig} {c : Cursor},
      (paramsAfter read fuel missing done).start c = (.ok params, c') →
      ∃ more, params = done.reverse ++ more ∧ countParams more = missing ∧
        Spans c c' (.each write more) := by
  induction fuel with
  | zero =>
    intro missing done params c h
    cases missing with
    | zero =>
      obtain ⟨rfl, rfl⟩ := start_pure_eq_ok.mp h
      exact ⟨[], by simp, rfl, .nil _⟩
    | succ missing => cases h
  | succ fuel ih =>
    intro missing done params c h
    cases missing with
    | zero =>
      obtain ⟨rfl, rfl⟩ := start_pure_eq_ok.mp h
      exact ⟨[], by simp, rfl, .nil _⟩
    | succ missing =>
      obtain ⟨t, c₁, ht, h⟩ := start_bind_eq_ok.mp h
      obtain ⟨more, rfl, hcount, hspan⟩ := ih h
      refine ⟨t :: more, by simp, ?_, (hread ht).trans hspan⟩
      rw [countParams_cons, hcount]
      cases t.isSentinel with
      | true => rfl
      | false => rfl

theorem spans_params (hread : Rewrites read write) {count : Nat} {params : List TypeSig}
    (h : (readParams read count).start c = (.ok params, c')) :
    countParams params = count ∧ Spans c c' (writeAll params) := by
  obtain ⟨more, rfl, hcount, hspan⟩ := spans_paramsAfter hread c.remaining h
  rw [writeAll_eq_each]
  exact ⟨hcount, hspan⟩

end TypeSig

namespace MethodSig

theorem spans_generics {convention : UInt8} {generics : Nat} {c c' : Cursor}
    (h : (readGenerics .strict convention).start c = (.ok generics, c')) :
    Spans c c' (if hasMark convention genericMark then .number generics else .ok []) := by
  unfold readGenerics at h
  split
  · next hmark =>
    rw [if_pos hmark] at h
    exact Numerals.rewrites_number h
  · next hmark =>
    rw [if_neg hmark] at h
    obtain ⟨-, rfl⟩ := start_pure_eq_ok.mp h
    exact .nil c

theorem spans_types {read : Reader TypeSig} (hread : Rewrites read TypeSig.write)
    {convention : UInt8} {generics : Nat} {s : MethodSig} {c c' : Cursor}
    (h : (readTypes .strict read convention generics).start c = (.ok s, c')) :
    s.convention = convention ∧ s.generics = generics ∧
      Spans c c' (.count s.arity ++ (s.ret.write ++ TypeSig.writeAll s.params)) := by
  obtain ⟨count, c₁, hcount, h⟩ := start_bind_eq_ok.mp h
  obtain ⟨ret, c₂, hret, h⟩ := start_bind_eq_ok.mp h
  obtain ⟨params, c₃, hparams, h⟩ := start_bind_eq_ok.mp h
  obtain ⟨rfl, rfl⟩ := start_pure_eq_ok.mp h
  obtain ⟨rfl, hspan⟩ := TypeSig.spans_params hread hparams
  exact ⟨rfl, rfl, (Numerals.rewrites_count hcount).trans ((hread hret).trans hspan)⟩

/-- A method signature is written anew as it was read if the types in it are. -/
theorem rewrites_readWith {read : Reader TypeSig} (hread : Rewrites read TypeSig.write) :
    Rewrites (readWith .strict read) write := by
  intro c c' s h
  rw [readWith_eq] at h
  obtain ⟨convention, c₁, hconvention, h⟩ := start_bind_eq_ok.mp h
  split at h
  · cases h
  obtain ⟨generics, c₂, hgenerics, h⟩ := start_bind_eq_ok.mp h
  obtain ⟨rfl, rfl, hspan⟩ := spans_types hread h
  rw [write_eq]
  exact (Spans.byte hconvention).trans ((spans_generics hgenerics).trans hspan)

end MethodSig

theorem Primitive.code_of_ofCode? {b : UInt8} {p : Primitive} (h : Primitive.ofCode? b = some p) :
    p.code = b := by
  have hfound : (p.code == b) = true := List.find?_some (p := fun q => Primitive.code q == b) h
  exact beq_iff_eq.mp hfound

namespace TypeSig

variable {inner deeper : Reader TypeSig} {c c' : Cursor}

/-- What follows the byte that a type starts with is written anew as it was read. -/
theorem spans_after (hinner : Rewrites inner write) (hdeeper : Rewrites deeper write) {l : Lead}
    {t : TypeSig} (h : (readAfter .strict inner deeper l).start c = (.ok t, c')) :
    ∃ w, t.write = .ok [l.code] ++ w ∧ Spans c c' w := by
  cases l with
  | pointer | byRef | vector | pinned =>
    obtain ⟨t, c₁, ht, h⟩ := start_bind_eq_ok.mp h
    obtain ⟨rfl, rfl⟩ := start_pure_eq_ok.mp h
    exact ⟨t.write, rfl, hinner ht⟩
  | valueType | classType =>
    obtain ⟨token, c₁, htoken, h⟩ := start_bind_eq_ok.mp h
    obtain ⟨rfl, rfl⟩ := start_pure_eq_ok.mp h
    exact ⟨.token token, rfl, Numerals.rewrites_token htoken⟩
  | typeVar | methodVar =>
    obtain ⟨index, c₁, hindex, h⟩ := start_bind_eq_ok.mp h
    obtain ⟨rfl, rfl⟩ := start_pure_eq_ok.mp h
    exact ⟨.number index, rfl, Numerals.rewrites_number hindex⟩
  | sentinel =>
    obtain ⟨rfl, rfl⟩ := start_pure_eq_ok.mp h
    exact ⟨.ok [], rfl, .nil c⟩
  | array =>
    obtain ⟨element, c₁, helement, h⟩ := start_bind_eq_ok.mp h
    obtain ⟨rank, c₂, hrank, h⟩ := start_bind_eq_ok.mp h
    obtain ⟨sizes, c₃, hsizes, h⟩ := start_bind_eq_ok.mp h
    obtain ⟨lowerBounds, c₄, hbounds, h⟩ := start_bind_eq_ok.mp h
    obtain ⟨rfl, rfl⟩ := start_pure_eq_ok.mp h
    refine ⟨element.write ++ (.number rank ++ (.numbers sizes ++ .numbers lowerBounds)), ?_, ?_⟩
    · rw [write]
      simp only [Written.append_assoc]
    · have hspan := (rewrites_numbers hsizes).trans (rewrites_numbers hbounds)
      exact (hinner helement).trans ((Numerals.rewrites_number hrank).trans hspan)
  | instance_ =>
    obtain ⟨isValueType, c₁, hkind, h⟩ := start_bind_eq_ok.mp h
    obtain ⟨generic, c₂, hgeneric, h⟩ := start_bind_eq_ok.mp h
    obtain ⟨count, c₃, hcount, h⟩ := start_bind_eq_ok.mp h
    obtain ⟨args, c₄, hargs, h⟩ := start_bind_eq_ok.mp h
    obtain ⟨rfl, rfl⟩ := start_pure_eq_ok.mp h
    obtain ⟨rfl, hspan⟩ := hinner.times hargs
    refine ⟨_, write_instance isValueType generic args, ?_⟩
    refine (spans_instanceKind hkind).trans ?_
    refine (Numerals.rewrites_token hgeneric).trans ?_
    exact (Numerals.rewrites_count hcount).trans hspan
  | function =>
    obtain ⟨s, c₁, hs, h⟩ := start_bind_eq_ok.mp h
    obtain ⟨rfl, rfl⟩ := start_pure_eq_ok.mp h
    exact ⟨s.write, write_function _ _ _ _, MethodSig.rewrites_readWith hdeeper hs⟩
  | modified required =>
    obtain ⟨modifier, c₁, hmodifier, h⟩ := start_bind_eq_ok.mp h
    obtain ⟨t, c₂, ht, h⟩ := start_bind_eq_ok.mp h
    obtain ⟨rfl, rfl⟩ := start_pure_eq_ok.mp h
    refine ⟨.token modifier ++ t.write, ?_, (Numerals.rewrites_token hmodifier).trans (hinner ht)⟩
    rw [write, Written.append_assoc]

theorem Lead.code_of_ofCode? {b : UInt8} {l : Lead} (h : Lead.ofCode? b = some l) : l.code = b := by
  have hfound : (l.code == b) = true := List.find?_some (p := fun k => Lead.code k == b) h
  exact beq_iff_eq.mp hfound

theorem rewrites_from (hinner : Rewrites inner write) (hdeeper : Rewrites deeper write) :
    Rewrites (Reader.byte >>= readFrom .strict inner deeper) write := by
  intro c c' t h
  obtain ⟨b, c₁, hb, h⟩ := start_bind_eq_ok.mp h
  have hspan := Spans.byte hb
  unfold readFrom at h
  cases hprimitive : Primitive.ofCode? b with
  | some p =>
    rw [hprimitive] at h
    obtain ⟨rfl, rfl⟩ := start_pure_eq_ok.mp h
    rw [← Primitive.code_of_ofCode? hprimitive] at hspan
    exact hspan
  | none =>
    rw [hprimitive] at h
    cases hlead : Lead.ofCode? b with
    | some l =>
      rw [hlead] at h
      obtain ⟨w, hw, hspan'⟩ := spans_after hinner hdeeper h
      rw [hw, Lead.code_of_ofCode? hlead]
      exact hspan.trans hspan'
    | none =>
      rw [hlead] at h
      cases h

/-- A type is written anew as it was read, from however many levels. -/
theorem rewrites_levels (levels : Nat) : Rewrites (readLevels .strict levels) write := by
  induction levels using Nat.strongRecOn with
  | ind levels ih =>
    cases levels with
    | zero =>
      intro c c' t h
      cases h
    | succ levels =>
      rw [readLevels_succ]
      exact rewrites_from (ih levels (by omega)) (ih (levels - 1) (by omega))

end TypeSig

/-! ### What was read is written again -/

/-- Where a reader answers and a stricter one that writes anew what it reads gets through,
the answer stands for the bytes that were read. -/
theorem Reader.Rewrites.spans {α : Type} {strict read : Reader α} {write : α → Written}
    (h : Rewrites strict write) (hrefines : Refines strict read) {c c' : Cursor} {a : α}
    (hread : read.start c = (.ok a, c')) (hstrict : ∃ b c₁, strict.start c = (.ok b, c₁)) :
    Spans c c' (write a) := by
  obtain ⟨b, c₁, hb⟩ := hstrict
  have hsame := (hrefines hb).symm.trans hread
  cases hsame
  exact h hb

theorem MethodSig.spans_of_strict {c c' : Cursor} {s : MethodSig}
    (h : MethodSig.read.start c = (.ok s, c')) (hstrict : MethodSig.StandsStrict c) :
    Spans c c' s.write :=
  (MethodSig.rewrites_readWith (TypeSig.rewrites_levels _)).spans
    (MethodSig.readWith_refines (TypeSig.readLevels_refines _)) h hstrict

theorem TypeSig.spans_of_strict {c c' : Cursor} {t : TypeSig}
    (h : TypeSig.read.start c = (.ok t, c')) (hstrict : TypeSig.StandsStrict c) :
    Spans c c' t.write :=
  (TypeSig.rewrites_levels _).spans (TypeSig.readLevels_refines _) h hstrict

/-- What is parsed, be it a method signature or a type at any position, is encoded as just the
bytes that were consumed, if these hold numbers in their shortest form only and no row that
is too large for a token.  So equal results come from equal bytes. -/
theorem signature_rewritten :
    (∀ blob s, MethodSig.parse blob = .ok s → MethodSig.StandsStrict (Cursor.start blob) →
      ∃ consumed rest, s.encode = .ok consumed ∧ blob = consumed ++ rest ∧
        MethodSig.read.start (Cursor.start blob) = (.ok s, ⟨consumed.length, rest⟩)) ∧
    (∀ pos bytes t c', TypeSig.read.start ⟨pos, bytes⟩ = (.ok t, c') →
      TypeSig.StandsStrict ⟨pos, bytes⟩ →
      ∃ consumed, t.encode = .ok consumed ∧ bytes = consumed ++ c'.rest ∧
        c'.pos = pos + consumed.length) ∧
    (∀ blob₁ blob₂ s, MethodSig.parse blob₁ = .ok s → MethodSig.parse blob₂ = .ok s →
      MethodSig.StandsStrict (Cursor.start blob₁) → MethodSig.StandsStrict (Cursor.start blob₂) →
      ∃ consumed rest₁ rest₂, blob₁ = consumed ++ rest₁ ∧ blob₂ = consumed ++ rest₂ ∧
        MethodSig.read.start (Cursor.start blob₁) = (.ok s, ⟨consumed.length, rest₁⟩) ∧
        MethodSig.read.start (Cursor.start blob₂) = (.ok s, ⟨consumed.length, rest₂⟩)) ∧
    (∀ pos₁ pos₂ bytes₁ bytes₂ t c₁ c₂, TypeSig.read.start ⟨pos₁, bytes₁⟩ = (.ok t, c₁) →
      TypeSig.read.start ⟨pos₂, bytes₂⟩ = (.ok t, c₂) → TypeSig.StandsStrict ⟨pos₁, bytes₁⟩ →
      TypeSig.StandsStrict ⟨pos₂, bytes₂⟩ →
      ∃ consumed, bytes₁ = consumed ++ c₁.rest ∧ bytes₂ = consumed ++ c₂.rest ∧
        c₁.pos = pos₁ + consumed.length ∧ c₂.pos = pos₂ + consumed.length) := by
  have hmethod : ∀ blob s, MethodSig.parse blob = .ok s →
      MethodSig.StandsStrict (Cursor.start blob) →
      ∃ consumed rest, s.encode = .ok consumed ∧ blob = consumed ++ rest ∧
        MethodSig.read.start (Cursor.start blob) = (.ok s, ⟨consumed.length, rest⟩) := by
    intro blob s hparse hstrict
    rcases hread : MethodSig.read.start (Cursor.start blob) with ⟨x, c'⟩
    obtain rfl : x = .ok s := (congrArg Prod.fst hread).symm.trans hparse
    obtain ⟨consumed, hwrite, hrest, hpos⟩ := MethodSig.spans_of_strict hread hstrict
    refine ⟨consumed, c'.rest, Written.toExcept_eq_ok.mpr hwrite, hrest, ?_⟩
    rw [← Nat.zero_add consumed.length]
    exact congrArg (Prod.mk _) (congrArg (Cursor.mk · c'.rest) hpos)
  have htype : ∀ pos bytes t c', TypeSig.read.start ⟨pos, bytes⟩ = (.ok t, c') →
      TypeSig.StandsStrict ⟨pos, bytes⟩ →
      ∃ consumed, t.encode = .ok consumed ∧ bytes = consumed ++ c'.rest ∧
        c'.pos = pos + consumed.length := by
    intro pos bytes t c' hread hstrict
    obtain ⟨consumed, hwrite, hrest, hpos⟩ := TypeSig.spans_of_strict hread hstrict
    exact ⟨consumed, Written.toExcept_eq_ok.mpr hwrite, hrest, hpos⟩
  refine ⟨hmethod, htype, ?_, ?_⟩
  · intro blob₁ blob₂ s hparse₁ hparse₂ hstrict₁ hstrict₂
    obtain ⟨consumed, rest₁, hencode, hblob₁, hread₁⟩ := hmethod blob₁ s hparse₁ hstrict₁
    obtain ⟨consumed₂, rest₂, hencode₂, hblob₂, hread₂⟩ := hmethod blob₂ s hparse₂ hstrict₂
    obtain rfl := Except.ok.inj (hencode.symm.trans hencode₂)
    exact ⟨consumed, rest₁, rest₂, hblob₁, hblob₂, hread₁, hread₂⟩
  · intro pos₁ pos₂ bytes₁ bytes₂ t c₁ c₂ hread₁ hread₂ hstrict₁ hstrict₂
    obtain ⟨consumed, hencode, hrest₁, hpos₁⟩ := htype pos₁ bytes₁ t c₁ hread₁ hstrict₁
    obtain ⟨consumed₂, hencode₂, hrest₂, hpos₂⟩ := htype pos₂ bytes₂ t c₂ hread₂ hstrict₂
    obtain rfl := Except.ok.inj (hencode.symm.trans hencode₂)
    exact ⟨consumed, hrest₁, hrest₂, hpos₁, hpos₂⟩

/-- A parameter list with a mark inside is encoded with the count that it was read with, and
the byte behind the signature is not part of it. -/
theorem signature_rewritten_variadicBytes :
    MethodSig.parse (MethodSig.variadicBytes ++ [0x41]) = .ok MethodSig.variadicSample ∧
      MethodSig.StandsStrict (Cursor.start (MethodSig.variadicBytes ++ [0x41])) ∧
      MethodSig.variadicSample.encode = .ok MethodSig.variadicBytes := by
  have hparse : MethodSig.parse (MethodSig.variadicBytes ++ [0x41]) =
      .ok MethodSig.variadicSample := rfl
  have hstrict : MethodSig.StandsStrict (Cursor.start (MethodSig.variadicBytes ++ [0x41])) :=
    ⟨MethodSig.variadicSample, ⟨31, [0x41]⟩, rfl⟩
  obtain ⟨consumed, rest, hencode, hblob, hread⟩ := signature_rewritten.1 _ _ hparse hstrict
  have hstop : MethodSig.read.start (Cursor.start (MethodSig.variadicBytes ++ [0x41])) =
      (.ok MethodSig.variadicSample, ⟨31, [0x41]⟩) := rfl
  obtain ⟨-, hcursor⟩ := Prod.mk.inj (hread.symm.trans hstop)
  obtain ⟨-, rfl⟩ := Cursor.mk.inj hcursor
  obtain rfl := List.append_cancel_right hblob
  exact ⟨hparse, hstrict, hencode⟩

/-- In a longer form than it needs, a number does not come back. -/
example : ∃ t c', TypeSig.read.start ⟨0, [0x13, 0x80, 0x05]⟩ = (.ok t, c') ∧
    t.encode = .ok [0x13, 0x05] := ⟨.typeVar 5, ⟨3, []⟩, rfl, rfl⟩

end CilProbe
