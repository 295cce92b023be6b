/-
CilProbe/Proofs/Signature/Rereading.lean

Types that were read are written and read back.  The bytes need not be the same, as a number
may have stood in a longer form, but the type is: a reader answers only with numbers that have
a form, with tokens of type tables, and with parameter lists that do not end in a mark, and
such types are read back by the lemmas of `RoundTrip`, one for each constructor.

The induction follows the readers, as `Reader.Answers` says of a reader what is true of all
its answers.  A type can be read back from as many levels as it was read from, or more; so can
what is in it, when its modifiers are taken away (`answers_levels`).
-/
import CilProbe.Proofs.Signature.RoundTrip

namespace CilProbe

namespace Reader

/-! ### What is true of all answers -/

variable {α β : Type} {r : Reader α} {f : α → Reader β} {P : α → Prop} {Q : β → Prop}

/-- Whatever a reader answers is such that `P`. -/
def Answers (r : Reader α) (P : α → Prop) : Prop :=
  ∀ ⦃c c' : Cursor⦄ ⦃a : α⦄, r.start c = (.ok a, c') → P a

namespace Answers

theorem pure {a : α} (h : P a) : Answers (Pure.pure a) P := by
  intro c c' a' hrun
  obtain ⟨rfl, -⟩ := start_pure_eq_ok.mp hrun
  exact h

theorem throw (e : Error) : Answers (MonadExcept.throw e) P := nofun

theorem any (r : Reader α) : Answers r fun _ => True := fun _ _ _ _ => trivial

theorem bind (hr : Answers r P) (hf : ∀ a, P a → Answers (f a) Q) : Answers (r >>= f) Q := by
  intro c c' b hrun
  obtain ⟨a, c₁, ha, hb⟩ := start_bind_eq_ok.mp hrun
  exact hf a (hr ha) hb

theorem timesAfter (hr : Answers r P) (n : Nat) (done : List α) :
    Answers (Reader.timesAfter r n done) fun as =>
      ∃ more, as = done.reverse ++ more ∧ more.length = n ∧ ∀ a ∈ more, P a := by
  induction n generalizing done with
  | zero => exact .pure ⟨[], by simp, rfl, by simp⟩
  | succ n ih =>
    refine hr.bind fun a ha c c' as hrun => ?_
    obtain ⟨more, rfl, rfl, hmore⟩ := ih (a :: done) hrun
    exact ⟨a :: more, by simp, rfl, List.forall_mem_cons.mpr ⟨ha, hmore⟩⟩

theorem times (hr : Answers r P) (n : Nat) :
    Answers (Reader.times n r) fun as => as.length = n ∧ ∀ a ∈ as, P a := by
  intro c c' as hrun
  obtain ⟨more, rfl, hlen, hmore⟩ := hr.timesAfter n [] hrun
  exact ⟨hlen, hmore⟩

end Answers

end Reader

open Reader

/-! ### Numbers and tokens -/

namespace Compressed

theorem answers_read : Answers read fun n => n ≤ limit := fun _ _ _ h => le_limit_of_read h

/-- A row that is too large is cut when the token is made, and the token that is left can be
written. -/
theorem answers_readToken : Answers readToken fun t => Reads readToken (.token t) t := by
  refine (Answers.any read).bind fun value _ => ?_
  cases htable : table? (value % 4) with
  | none => exact .throw _
  | some table =>
    refine .pure (reads_token ?_)
    rw [table_ofParts, table?_eq_some_iff.mp htable]
    rfl

end Compressed

namespace TypeSig

/-! ### Types that can be read back -/

/-- A type is read back from `levels` levels, or more. -/
def ReadsBack (levels : Nat) (t : TypeSig) : Prop :=
  ∀ levels', levels ≤ levels' → Reads (readLevels .any levels') t.write t

/-- What is said of every type that was read. -/
structure Rereadable (levels : Nat) (t : TypeSig) : Prop where
  readsBack : ReadsBack levels t
  unmodified : ReadsBack levels t.unmodified

variable {levels : Nat} {t : TypeSig}

theorem ReadsBack.mono {levels' : Nat} (h : ReadsBack levels t) (hle : levels ≤ levels') :
    ReadsBack levels' t := fun _ hle' => h _ (Nat.le_trans hle hle')

/-- Whatever is made of types is one level above them. -/
theorem ReadsBack.of_succ
    (h : ∀ levels', levels ≤ levels' → Reads (readLevels .any (levels' + 1)) t.write t) :
    ReadsBack (levels + 1) t := by
  intro levels' hle
  obtain ⟨levels', rfl⟩ := Nat.exists_eq_add_of_le' hle
  exact h (levels' + levels) (by omega)

theorem Rereadable.of_plain (hplain : t.unmodified = t) (h : ReadsBack levels t) :
    Rereadable levels t := ⟨h, hplain.symm ▸ h⟩

/-- A type with a modifier around it. -/
theorem Rereadable.around {inner : TypeSig} (hinner : Rereadable levels inner)
    (heq : t.unmodified = inner.unmodified) (h : ReadsBack (levels + 1) t) :
    Rereadable (levels + 1) t := ⟨h, heq ▸ hinner.unmodified.mono (Nat.le_succ levels)⟩

/-! ### Parts -/

theorem answers_numbers :
    Answers (readNumbers .any) fun ns => Reads (readNumbers .any) (.numbers ns) ns := by
  refine Compressed.answers_read.bind fun n hn c c' ns hrun => ?_
  obtain ⟨rfl, hns⟩ := Compressed.answers_read.times n hrun
  exact reads_numbers hn hns

variable {read : Reader TypeSig} {P : TypeSig → Prop}

/-- A parameter that completes a list is no mark, and a mark does not complete it. -/
theorem isSentinel_of_last {t : TypeSig} {more : List TypeSig} {missing : Nat}
    (hcount : countParams more = if t.isSentinel then missing + 1 else missing)
    (hlast : ∀ u, more.getLast? = some u → u.isSentinel = false) :
    ∀ u, (t :: more).getLast? = some u → u.isSentinel = false := by
  intro u hu
  cases more with
  | nil =>
    rw [List.getLast?_singleton] at hu
    obtain rfl := Option.some.inj hu
    apply Bool.eq_false_iff.mpr
    intro hmark
    cases hcount.trans (if_pos hmark)
  | cons v more =>
    rw [List.getLast?_cons_cons] at hu
    exact hlast u hu

/-- A list holds as many parameters as were asked for, and a parameter at its end. -/
theorem answers_paramsAfter (hread : Answers read P) (fuel : Nat) :
    ∀ missing done, Answers (paramsAfter read fuel missing done) fun ts =>
      ∃ more, ts = done.reverse ++ more ∧ countParams more = missing ∧ (∀ t ∈ more, P t) ∧
        ∀ t, more.getLast? = some t → t.isSentinel = false := by
  induction fuel with
  | zero =>
    intro missing done
    cases missing with
    | zero => exact .pure ⟨[], by simp, rfl, by simp, nofun⟩
    | succ missing => exact .throw _
  | succ fuel ih =>
    intro missing done
    cases missing with
    | zero => exact .pure ⟨[], by simp, rfl, by simp, nofun⟩
    | succ missing =>
      -- after a mark as many parameters are missing as before
      refine hread.bind fun t ht c c' ts hrun => ?_
      obtain ⟨more, rfl, hcount, hmore, hlast⟩ := ih _ (t :: done) hrun
      refine ⟨t :: more, by simp, ?_, List.forall_mem_cons.mpr ⟨ht, hmore⟩,
        isSentinel_of_last hcount hlast⟩
      rw [countParams_cons, hcount]
      cases t.isSentinel <;> rfl

end TypeSig

/-! ### Method signatures -/

namespace MethodSig

/-- What is said of every method signature that was read, its types being such that `P`. -/
structure MadeOf (P : TypeSig → Prop) (s : MethodSig) : Prop where
  kind : s.convention.toNat % kindRange ≠ localsKind
  generics : Reads (readGenerics .any s.convention)
    (if hasMark s.convention genericMark then .number s.generics else .ok []) s.generics
  arity_le : s.arity ≤ Compressed.limit
  ret : P s.ret
  params : ∀ t ∈ s.params, P t
  last : ∀ t, s.params.getLast? = some t → t.isSentinel = false

variable {read : Reader TypeSig} {P : TypeSig → Prop}

theorem MadeOf.reads {s : MethodSig} (h : s.MadeOf P)
    (hread : ∀ t, P t → Reads read t.write t) : Reads (readWith .any read) s.write s :=
  reads_of_parts h.kind h.generics h.arity_le (hread _ h.ret)
    (fun t ht => hread t (h.params t ht)) h.last

theorem answers_generics (convention : UInt8) :
    Answers (readGenerics .any convention) fun n => Reads (readGenerics .any convention)
      (if hasMark convention genericMark then .number n else .ok []) n := by
  unfold readGenerics
  split
  · exact fun c c' n hrun => Compressed.reads_number (Compressed.answers_read hrun)
  · intro c c' n hrun
    obtain ⟨rfl, -⟩ := start_pure_eq_ok.mp hrun
    exact .pure 0

theorem answers_readWith (hread : Answers read P) :
    Answers (readWith .any read) fun s => s.MadeOf P := by
  rw [readWith_eq]
  refine (Answers.any Reader.byte).bind fun convention _ => ?_
  split
  · exact .throw _
  next hkind =>
    refine (answers_generics convention).bind fun generics hgenerics => ?_
    refine Compressed.answers_read.bind fun count hcount => ?_
    refine hread.bind fun ret hret => ?_
    refine Answers.bind (P := fun ts => TypeSig.countParams ts = count ∧ (∀ t ∈ ts, P t) ∧
        ∀ t, ts.getLast? = some t → t.isSentinel = false) ?_ ?_
    · refine (Answers.any get).bind fun c _ c₁ c₂ ts hrun => ?_
      obtain ⟨more, rfl, h⟩ := TypeSig.answers_paramsAfter hread _ _ _ hrun
      exact h
    · rintro params ⟨rfl, hparams, hlast⟩
      exact .pure ⟨hkind, hgenerics, hcount, hret, hparams, hlast⟩

end MethodSig

/-! ### Types -/

namespace TypeSig

variable {levels : Nat}

/-- What follows the byte that a type starts with makes a type that can be read back, if the
types in it can. -/
theorem answers_after (hinner : Answers (readLevels .any levels) (Rereadable levels))
    (hdeeper : Answers (readLevels .any (levels - 1)) (Rereadable (levels - 1))) (l : Lead) :
    Answers (readAfter .any (readLevels .any levels) (readLevels .any (levels - 1)) l)
      (Rereadable (levels + 1)) := by
  cases l with
  | pointer | byRef | vector =>
    refine hinner.bind fun t ht => .pure (.of_plain rfl (.of_succ fun levels' hle => ?_))
    exact reads_lead ((ht.readsBack levels' hle).bind_pure _)
  | pinned =>
    refine hinner.bind fun t ht => .pure (ht.around rfl (.of_succ fun levels' hle => ?_))
    exact reads_lead ((ht.readsBack levels' hle).bind_pure _)
  | valueType | classType =>
    refine Compressed.answers_readToken.bind fun token htoken => ?_
    exact .pure (.of_plain rfl (.of_succ fun levels' _ => reads_lead (htoken.bind_pure _)))
  | typeVar | methodVar =>
    refine Compressed.answers_read.bind fun n hn => ?_
    refine .pure (.of_plain rfl (.of_succ fun levels' _ => ?_))
    exact reads_lead ((Compressed.reads_number hn).bind_pure _)
  | sentinel =>
    refine .pure (.of_plain rfl (.of_succ fun levels' _ => ?_))
    exact reads_lead (w := .ok []) (.pure TypeSig.sentinel)
  | array =>
    refine hinner.bind fun element helement => ?_
    refine Compressed.answers_read.bind fun rank hrank => ?_
    refine answers_numbers.bind fun sizes hsizes => ?_
    refine answers_numbers.bind fun lowerBounds hbounds => ?_
    refine .pure (.of_plain rfl (.of_succ fun levels' hle => ?_))
    exact reads_array (helement.readsBack levels' hle) hrank hsizes hbounds
  | instance_ =>
    refine (Answers.any readInstanceKind).bind fun isValueType _ => ?_
    refine Compressed.answers_readToken.bind fun generic hgeneric => ?_
    refine Compressed.answers_read.bind fun count hcount => ?_
    refine (hinner.times count).bind fun args ⟨hlen, hargs⟩ => ?_
    refine .pure (.of_plain rfl (.of_succ fun levels' hle => ?_))
    exact reads_instance hgeneric (hlen ▸ hcount) fun t ht => (hargs t ht).readsBack levels' hle
  | function =>
    refine (MethodSig.answers_readWith hdeeper).bind fun s hs => ?_
    refine .pure (.of_plain rfl (.of_succ fun levels' hle => ?_))
    exact reads_function (hs.reads fun t ht => ht.readsBack (levels' - 1) (by omega))
  | modified required =>
    refine Compressed.answers_readToken.bind fun modifier hmodifier => ?_
    refine hinner.bind fun t ht => .pure (ht.around rfl (.of_succ fun levels' hle => ?_))
    exact reads_modified hmodifier (ht.readsBack levels' hle)

/-- A type can be read back, from however many levels it was read. -/
theorem answers_levels (levels : Nat) : Answers (readLevels .any levels) (Rereadable levels) := by
  -- the types of a function's signature are two levels down
  induction levels using Nat.strongRecOn with
  | ind levels ih =>
    cases levels with
    | zero => exact .throw _
    | succ levels =>
      rw [readLevels_succ]
      refine (Answers.any Reader.byte).bind fun b _ => ?_
      unfold readFrom
      cases Primitive.ofCode? b with
      | some p => exact .pure (.of_plain rfl (.of_succ fun levels' _ => reads_primitive p levels'))
      | none =>
        cases Lead.ofCode? b with
        | some l => exact answers_after (ih levels (by omega)) (ih (levels - 1) (by omega)) l
        | none => exact .throw _

end TypeSig

/-- The return type of a method signature that was read, with its modifiers or without them, is
read back as the type of a parameter is read. -/
theorem MethodSig.ret_rereadable {blob : List UInt8} {s : MethodSig}
    (h : MethodSig.parse blob = .ok s) : s.ret.Rereadable TypeSig.nestingLimit := by
  rcases hread : MethodSig.read.start (Cursor.start blob) with ⟨x, c'⟩
  obtain rfl : x = .ok s := (congrArg Prod.fst hread).symm.trans h
  exact (answers_readWith (TypeSig.answers_levels TypeSig.nestingLimit) hread).ret

end CilProbe
