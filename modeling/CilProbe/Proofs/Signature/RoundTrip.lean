/-
CilProbe/Proofs/Signature/RoundTrip.lean

Signatures survive being written and read.  `TypeSig.Writable` and `MethodSig.Writable`
say which of them have bytes that stand for them: numbers and lists within the limit of
compressed numbers, tokens of type tables only, and, for every method signature in them,
a convention that does not say "locals", generic parameters only where it says that there
are some, and no mark of a variable argument list behind the last parameter, where no
reader would look for it.  `depth` counts levels as the readers do.

The readers go through a type along its structure, so the proof is one induction with one
step for each constructor (`TypeSig.Writable.reads_succ`); a method signature is a step of its
own, shared by those that stand alone and those of function pointers
(`MethodSig.reads_readWith`).  Main result: `signature_round_trip`.
-/
import CilProbe.Proofs.Bytes.Compressed

namespace CilProbe

/-! ### What can be written -/

/-- Whether a type can be referred to by the token. -/
def Token.NamesType (t : Token) : Prop :=
  t.table = typeDefTable ∨ t.table = typeRefTable ∨ t.table = typeSpecTable

/-- What a method signature must be like apart from the types in it. -/
structure MethodSig.Regular (s : MethodSig) : Prop where
  kind : s.convention.toNat % kindRange ≠ localsKind
  unmarked : hasMark s.convention genericMark = false → s.generics = 0
  generics_le : s.generics ≤ Compressed.limit
  last : ∀ t, s.params.getLast? = some t → t.isSentinel = false
  length_le : s.params.length ≤ Compressed.limit

namespace TypeSig

/-- Types that can be written. -/
inductive Writable : TypeSig → Prop
  | primitive (type : Primitive) : Writable (.primitive type)
  | sentinel : Writable .sentinel
  | classType {token : Token} : token.NamesType → Writable (.classType token)
  | valueType {token : Token} : token.NamesType → Writable (.valueType token)
  | typeVar {index : Nat} : index ≤ Compressed.limit → Writable (.typeVar index)
  | methodVar {index : Nat} : index ≤ Compressed.limit → Writable (.methodVar index)
  | pointer {target : TypeSig} : Writable target → Writable (.pointer target)
  | byRef {target : TypeSig} : Writable target → Writable (.byRef target)
  | vector {element : TypeSig} : Writable element → Writable (.vector element)
  | pinned {inner : TypeSig} : Writable inner → Writable (.pinned inner)
  | array {element : TypeSig} {rank : Nat} {sizes lowerBounds : List Nat} :
      Writable element → rank ≤ Compressed.limit →
      sizes.length ≤ Compressed.limit → (∀ n ∈ sizes, n ≤ Compressed.limit) →
      lowerBounds.length ≤ Compressed.limit → (∀ n ∈ lowerBounds, n ≤ Compressed.limit) →
      Writable (.array element rank sizes lowerBounds)
  | instance_ {isValueType : Bool} {generic : Token} {args : List TypeSig} :
      generic.NamesType → args.length ≤ Compressed.limit → (∀ t ∈ args, Writable t) →
      Writable (.instance_ isValueType generic args)
  | function {convention : UInt8} {generics : Nat} {ret : TypeSig} {params : List TypeSig} :
      MethodSig.Regular ⟨convention, generics, ret, params⟩ → Writable ret →
      (∀ t ∈ params, Writable t) → Writable (.function convention generics ret params)
  | modified {required : Bool} {modifier : Token} {inner : TypeSig} :
      modifier.NamesType → Writable inner → Writable (.modified required modifier inner)

mutual

/-- The number of levels below a type; a function's signature is a level of its own. -/
def depth : TypeSig → Nat
  | .pointer t | .byRef t | .vector t | .pinned t => depth t + 1
  | .array element _ _ _ => depth element + 1
  | .modified _ _ inner => depth inner + 1
  | .instance_ _ _ args => depthAll args
  | .function _ _ ret params => max (depth ret + 1) (depthAll params) + 1
  | _ => 0

/-- The number of levels that types in a list need. -/
def depthAll : List TypeSig → Nat
  | [] => 0
  | t :: ts => max (depth t + 1) (depthAll ts)

end

theorem depth_lt_depthAll {t : TypeSig} {ts : List TypeSig} (h : t ∈ ts) :
    t.depth < depthAll ts := by
  induction ts with
  | nil => cases h
  | cons u ts ih =>
    rw [depthAll]
    rcases List.mem_cons.mp h with rfl | h
    · omega
    · have := ih h
      omega

end TypeSig

namespace MethodSig

/-- Method signatures that can be written. -/
structure Writable (s : MethodSig) : Prop where
  regular : s.Regular
  ret : s.ret.Writable
  params : ∀ t ∈ s.params, t.Writable

/-- The number of levels that the types in a method signature need. -/
def depth (s : MethodSig) : Nat := max (s.ret.depth + 1) (TypeSig.depthAll s.params)

end MethodSig

open Reader

/-! ### Parts -/

theorem Token.NamesType.isSome {t : Token} (h : t.NamesType) :
    (Compressed.tag? t.table).isSome = true := by
  rcases h with h | h | h
  · rw [h]
    rfl
  · rw [h]
    rfl
  · rw [h]
    rfl

namespace TypeSig

theorem reads_numbers {ns : List Nat} (hlen : ns.length ≤ Compressed.limit)
    (h : ∀ n ∈ ns, n ≤ Compressed.limit) : Reads (readNumbers .any) (.numbers ns) ns :=
  (Compressed.reads_count hlen).bind (.times fun n hn => Compressed.reads_number (h n hn))

theorem reads_instanceKind (isValueType : Bool) :
    Reads readInstanceKind
      (.ok [if isValueType then Lead.valueType.code else Lead.classType.code]) isValueType := by
  cases isValueType with
  | false => exact (Reads.byte Lead.classType.code).bind (v := .ok []) (.pure false)
  | true => exact (Reads.byte Lead.valueType.code).bind (v := .ok []) (.pure true)

theorem writeAll_eq_each (ts : List TypeSig) : writeAll ts = .each write ts := by
  induction ts with
  | nil => rfl
  | cons t ts ih =>
    rw [writeAll, ih]
    rfl

/-- Every type takes at least the byte that it starts with, also one that cannot be written. -/
theorem write_ne_nil (t : TypeSig) : t.write.bytes ≠ [] := by
  have hlead : ∀ (lead : UInt8) (w : Written), (Written.ok [lead] ++ w).bytes ≠ [] :=
    fun lead w => List.cons_ne_nil lead w.bytes
  cases t with
  | primitive | sentinel => exact List.cons_ne_nil _ _
  | classType | valueType | typeVar | methodVar => exact hlead _ _
  | pointer | byRef | vector | pinned => exact hlead _ _
  | array =>
    refine Written.bytes_append_ne_nil ?_ _
    refine Written.bytes_append_ne_nil ?_ _
    exact Written.bytes_append_ne_nil (hlead _ _) _
  | instance_ =>
    refine Written.bytes_append_ne_nil ?_ _
    refine Written.bytes_append_ne_nil ?_ _
    exact List.cons_ne_nil _ _
  | function =>
    refine Written.bytes_append_ne_nil ?_ _
    refine Written.bytes_append_ne_nil ?_ _
    refine Written.bytes_append_ne_nil ?_ _
    exact List.cons_ne_nil _ _
  | modified => exact Written.bytes_append_ne_nil (hlead _ _) _

/-! ### Parameter lists -/

theorem countParams_cons (t : TypeSig) (ts : List TypeSig) :
    countParams (t :: ts) = if t.isSentinel then countParams ts else countParams ts + 1 := by
  unfold countParams
  rw [List.countP_cons]
  cases t.isSentinel with
  | false => rfl
  | true => rfl

/-- In a list that does not end in a mark there is a parameter behind every mark. -/
theorem countParams_pos {t : TypeSig} {ts : List TypeSig}
    (h : ∀ u, (t :: ts).getLast? = some u → u.isSentinel = false) :
    0 < countParams (t :: ts) := by
  have hne := List.cons_ne_nil t ts
  have hlast := h _ (List.getLast?_eq_some_getLast hne)
  apply List.countP_pos_iff.mpr
  exact ⟨(t :: ts).getLast hne, List.getLast_mem hne, by rw [hlast]; rfl⟩

theorem paramsAfter_zero (read : Reader TypeSig) (fuel : Nat) (done : List TypeSig) :
    paramsAfter read fuel 0 done = pure done.reverse := by
  cases fuel with
  | zero => rfl
  | succ fuel => rfl

/-- Parameters are read up to the one that makes the list complete, which is the last. -/
theorem reads_paramsAfter {read : Reader TypeSig} {params : List TypeSig} :
    ∀ (done : List TypeSig) {fuel : Nat}, params.length ≤ fuel →
      (∀ t ∈ params, Reads read t.write t) →
      (∀ t, params.getLast? = some t → t.isSentinel = false) →
      Reads (paramsAfter read fuel (countParams params) done) (.each write params)
        (done.reverse ++ params) := by
  induction params with
  | nil =>
    intro done fuel _ _ _
    show Reads (paramsAfter read fuel 0 done) _ _
    rw [paramsAfter_zero, List.append_nil]
    exact .pure done.reverse
  | cons t params ih =>
    intro done fuel hfuel hread hlast
    obtain ⟨fuel, rfl⟩ : ∃ k, fuel = k + 1 := ⟨fuel - 1, by simp at hfuel; omega⟩
    obtain ⟨missing, hmissing⟩ : ∃ k, countParams (t :: params) = k + 1 :=
      ⟨countParams (t :: params) - 1, by have := countParams_pos hlast; omega⟩
    rw [hmissing]
    refine (hread t (by simp)).bind ?_
    -- a mark leaves the number of missing parameters as it is
    have hcount : (if t.isSentinel then missing + 1 else missing) = countParams params := by
      rw [countParams_cons] at hmissing
      split at hmissing
      · next h => rw [if_pos h, hmissing]
      · next h =>
        rw [if_neg h]
        omega
    have hlast' : ∀ u, params.getLast? = some u → u.isSentinel = false := by
      intro u hu
      apply hlast u
      rw [List.getLast?_cons, hu]
      rfl
    have hfuel' : params.length ≤ fuel := by simpa using hfuel
    have htail := ih (t :: done) hfuel'
      (fun u hu => hread u (List.mem_cons_of_mem _ hu)) hlast'
    rw [List.reverse_cons, List.append_assoc] at htail
    rw [hcount]
    exact htail

theorem length_le_each {ts : List TypeSig} {bytes : List UInt8}
    (h : Written.each write ts = .ok bytes) : ts.length ≤ bytes.length := by
  induction ts generalizing bytes with
  | nil => simp
  | cons t ts ih =>
    rcases ht : write t with ⟨first, _ | e⟩
    · rcases hts : Written.each write ts with ⟨more, _ | e⟩
      · rw [Written.each_cons, ht, hts] at h
        obtain rfl : bytes = first ++ more := (congrArg Written.bytes h).symm
        have hfirst : first ≠ [] := by
          have := write_ne_nil t
          rwa [ht] at this
        have := List.length_pos_iff.mpr hfirst
        have := ih hts
        simp only [List.length_cons, List.length_append]
        omega
      · rw [Written.each_cons, ht, hts] at h
        cases congrArg Written.failure h
    · rw [Written.each_cons, ht] at h
      cases congrArg Written.failure h

/-- A parameter list is read back; each parameter takes a byte, so the bytes left are
enough of a bound. -/
theorem reads_params {read : Reader TypeSig} {params : List TypeSig}
    (hread : ∀ t ∈ params, Reads read t.write t)
    (hlast : ∀ t, params.getLast? = some t → t.isSentinel = false) :
    Reads (readParams read (countParams params)) (writeAll params) params := by
  rw [writeAll_eq_each]
  obtain ⟨bytes, hbytes, -⟩ := reads_paramsAfter [] (Nat.le_refl _) hread hlast
  refine ⟨bytes, hbytes, ?_⟩
  intro pos rest
  have hfuel : params.length ≤ (bytes ++ rest).length := by
    have := length_le_each hbytes
    rw [List.length_append]
    omega
  obtain ⟨bytes', hbytes', h⟩ := reads_paramsAfter [] hfuel hread hlast
  obtain rfl : bytes' = bytes := congrArg Written.bytes (hbytes'.symm.trans hbytes)
  exact h pos rest

end TypeSig

/-! ### Method signatures -/

namespace MethodSig

/-- The bytes of a method signature, bracketed as they are read. -/
theorem write_eq (s : MethodSig) :
    s.write = .ok [s.convention] ++
      ((if hasMark s.convention genericMark then .number s.generics else .ok []) ++
        (.count s.arity ++ (s.ret.write ++ TypeSig.writeAll s.params))) := by
  unfold write
  simp only [Written.append_assoc]

theorem arity_le {s : MethodSig} (h : s.Regular) : s.arity ≤ Compressed.limit :=
  Nat.le_trans List.countP_le_length h.length_le

/-- The number of generic parameters, which is there only where the convention says so. -/
def readGenerics (k : Numerals) (convention : UInt8) : Reader Nat :=
  if hasMark convention genericMark then k.number else pure 0

/-- What stands behind the number of generic parameters. -/
def readTypes (k : Numerals) (read : Reader TypeSig) (convention : UInt8) (generics : Nat) :
    Reader MethodSig := do
  let count ← k.number
  let ret ← read
  let params ← TypeSig.readParams read count
  return ⟨convention, generics, ret, params⟩

/-- A method signature is read in three parts, of which the first decides about the second. -/
theorem readWith_eq (k : Numerals) (read : Reader TypeSig) :
    readWith k read = Reader.byte >>= fun convention =>
      if convention.toNat % kindRange = localsKind then
        throw (.malformed .localSignatureFound)
      else readGenerics k convention >>= readTypes k read convention := by
  unfold readWith readGenerics
  congr 1
  funext convention
  split
  · rfl
  split
  · rfl
  · rfl

theorem reads_generics {s : MethodSig} (h : s.Regular) :
    Reads (readGenerics .any s.convention)
      (if hasMark s.convention genericMark then .number s.generics else .ok []) s.generics := by
  unfold readGenerics
  by_cases hmark : hasMark s.convention genericMark = true
  · rw [if_pos hmark, if_pos hmark]
    exact Compressed.reads_number h.generics_le
  · rw [if_neg hmark, if_neg hmark, h.unmarked (Bool.not_eq_true _ ▸ hmark)]
    exact .pure 0

/-- A method signature is read back if its parts are. -/
theorem reads_of_parts {read : Reader TypeSig} {s : MethodSig}
    (hkind : s.convention.toNat % kindRange ≠ localsKind)
    (hgenerics : Reads (readGenerics .any s.convention)
      (if hasMark s.convention genericMark then .number s.generics else .ok []) s.generics)
    (harity : s.arity ≤ Compressed.limit) (hret : Reads read s.ret.write s.ret)
    (hparams : ∀ t ∈ s.params, Reads read t.write t)
    (hlast : ∀ t, s.params.getLast? = some t → t.isSentinel = false) :
    Reads (readWith .any read) s.write s := by
  rw [write_eq, readWith_eq]
  refine (Reads.byte s.convention).bind ?_
  rw [if_neg hkind]
  refine hgenerics.bind ?_
  refine (Compressed.reads_count harity).bind ?_
  refine hret.bind ?_
  exact (TypeSig.reads_params hparams hlast).bind_pure _

/-- A method signature is read back by a reader of the types in it. -/
theorem reads_readWith {read : Reader TypeSig} {s : MethodSig} (h : s.Regular)
    (hret : Reads read s.ret.write s.ret) (hparams : ∀ t ∈ s.params, Reads read t.write t) :
    Reads (readWith .any read) s.write s :=
  reads_of_parts h.kind (reads_generics h) (arity_le h) hret hparams h.last

end MethodSig

/-! ### Types -/

namespace TypeSig

theorem ofCode?_lead (l : Lead) : Primitive.ofCode? l.code = none := by
  rcases l with _ | _ | _ | _ | _ | _ | _ | _ | _ | _ | (_ | _) | _ | _ <;> rfl

theorem readLevels_succ (k : Numerals) (levels : Nat) :
    readLevels k (levels + 1) =
      Reader.byte >>= readFrom k (readLevels k levels) (readLevels k (levels - 1)) := by
  cases levels with
  | zero => rfl
  | succ levels => rfl

/-- A type is read back if what follows the byte that it starts with is. -/
theorem reads_lead {k : Numerals} {levels : Nat} {l : Lead} {w : Written} {t : TypeSig}
    (h : Reads (readAfter k (readLevels k levels) (readLevels k (levels - 1)) l) w t) :
    Reads (readLevels k (levels + 1)) (.ok [l.code] ++ w) t := by
  rw [readLevels_succ]
  refine (Reads.byte l.code).bind ?_
  unfold readFrom
  rw [ofCode?_lead, Lead.ofCode?_code]
  exact h

/-- The bytes of a function pointer are its code and the bytes of its signature. -/
theorem write_function (convention : UInt8) (generics : Nat) (ret : TypeSig)
    (params : List TypeSig) :
    write (.function convention generics ret params) =
      .ok [Lead.function.code] ++ MethodSig.write ⟨convention, generics, ret, params⟩ := by
  have hpair : Written.ok [Lead.function.code, convention] =
    .ok [Lead.function.code] ++ .ok [convention] := rfl
  unfold MethodSig.write
  rw [write, hpair]
  simp only [Written.append_assoc]
  rfl

/-- The bytes of a generic type, bracketed as they are read. -/
theorem write_instance (isValueType : Bool) (generic : Token) (args : List TypeSig) :
    write (.instance_ isValueType generic args) = .ok [Lead.instance_.code] ++
      (.ok [if isValueType then Lead.valueType.code else Lead.classType.code] ++
        (.token generic ++ (.count args.length ++ .each write args))) := by
  have hpair : Written.ok [Lead.instance_.code,
      if isValueType then Lead.valueType.code else Lead.classType.code] =
    .ok [Lead.instance_.code] ++
      .ok [if isValueType then Lead.valueType.code else Lead.classType.code] := rfl
  rw [write, hpair, writeAll_eq_each]
  simp only [Written.append_assoc]

section

variable {levels : Nat}

/-! What is made of types is read back one level above them. -/

theorem reads_primitive (type : Primitive) (levels : Nat) :
    Reads (readLevels .any (levels + 1)) (write (.primitive type)) (.primitive type) := by
  rw [readLevels_succ]
  refine (Reads.byte type.code).bind (v := .ok []) ?_
  unfold readFrom
  rw [Primitive.ofCode?_code]
  exact .pure (TypeSig.primitive type)

theorem reads_array {element : TypeSig} {rank : Nat} {sizes lowerBounds : List Nat}
    (helement : Reads (readLevels .any levels) element.write element)
    (hrank : rank ≤ Compressed.limit)
    (hsizes : Reads (readNumbers .any) (.numbers sizes) sizes)
    (hbounds : Reads (readNumbers .any) (.numbers lowerBounds) lowerBounds) :
    Reads (readLevels .any (levels + 1)) (write (.array element rank sizes lowerBounds))
      (.array element rank sizes lowerBounds) := by
  rw [write, Written.append_assoc, Written.append_assoc, Written.append_assoc]
  refine reads_lead ?_
  refine helement.bind ?_
  refine (Compressed.reads_number hrank).bind ?_
  refine hsizes.bind ?_
  exact hbounds.bind_pure _

theorem reads_instance {isValueType : Bool} {generic : Token} {args : List TypeSig}
    (hgeneric : Reads Compressed.readToken (.token generic) generic)
    (hlen : args.length ≤ Compressed.limit)
    (hargs : ∀ t ∈ args, Reads (readLevels .any levels) t.write t) :
    Reads (readLevels .any (levels + 1)) (write (.instance_ isValueType generic args))
      (.instance_ isValueType generic args) := by
  rw [write_instance]
  refine reads_lead ?_
  refine (reads_instanceKind isValueType).bind ?_
  refine hgeneric.bind ?_
  refine (Compressed.reads_count hlen).bind ?_
  exact (Reads.times hargs).bind_pure _

theorem reads_function {convention : UInt8} {generics : Nat} {ret : TypeSig}
    {params : List TypeSig}
    (hs : Reads (MethodSig.readWith .any (readLevels .any (levels - 1)))
      (MethodSig.write ⟨convention, generics, ret, params⟩) ⟨convention, generics, ret, params⟩) :
    Reads (readLevels .any (levels + 1)) (write (.function convention generics ret params))
      (.function convention generics ret params) := by
  rw [write_function]
  exact reads_lead (hs.bind_pure _)

theorem reads_modified {required : Bool} {modifier : Token} {inner : TypeSig}
    (hmodifier : Reads Compressed.readToken (.token modifier) modifier)
    (hinner : Reads (readLevels .any levels) inner.write inner) :
    Reads (readLevels .any (levels + 1)) (write (.modified required modifier inner))
      (.modified required modifier inner) := by
  rw [write, Written.append_assoc]
  refine reads_lead ?_
  refine hmodifier.bind ?_
  exact hinner.bind_pure _

end

/-- A type that nests less deep than there are levels leaves one for itself. -/
theorem reads_of_succ {t : TypeSig}
    (h : ∀ {levels : Nat}, t.depth ≤ levels → Reads (readLevels .any (levels + 1)) t.write t)
    {levels : Nat} (hdepth : t.depth < levels) : Reads (readLevels .any levels) t.write t := by
  obtain ⟨levels, rfl⟩ := Nat.exists_eq_add_one_of_ne_zero (Nat.ne_zero_of_lt hdepth)
  exact h (Nat.le_of_lt_succ hdepth)

theorem Writable.reads_succ {t : TypeSig} (h : t.Writable) {levels : Nat}
    (hdepth : t.depth ≤ levels) : Reads (readLevels .any (levels + 1)) t.write t := by
  -- a component has one level less to be read in, and nests less deep
  induction h generalizing levels with
  | primitive type => exact reads_primitive type levels
  | sentinel => exact reads_lead (w := .ok []) (.pure TypeSig.sentinel)
  | classType htoken => exact reads_lead ((Compressed.reads_token htoken.isSome).bind_pure _)
  | valueType htoken => exact reads_lead ((Compressed.reads_token htoken.isSome).bind_pure _)
  | typeVar hindex => exact reads_lead ((Compressed.reads_number hindex).bind_pure _)
  | methodVar hindex => exact reads_lead ((Compressed.reads_number hindex).bind_pure _)
  | pointer _ ih => exact reads_lead ((reads_of_succ ih hdepth).bind_pure _)
  | byRef _ ih => exact reads_lead ((reads_of_succ ih hdepth).bind_pure _)
  | vector _ ih => exact reads_lead ((reads_of_succ ih hdepth).bind_pure _)
  | pinned _ ih => exact reads_lead ((reads_of_succ ih hdepth).bind_pure _)
  | array _ hrank hsizes hsize hbounds hbound ih =>
    exact reads_array (reads_of_succ ih hdepth) hrank (reads_numbers hsizes hsize)
      (reads_numbers hbounds hbound)
  | @instance_ isValueType generic args hgeneric hlen _ ih =>
    have hargs : ∀ t ∈ args, Reads (readLevels .any levels) t.write t := by
      intro t ht
      refine reads_of_succ (ih t ht) ?_
      have := depth_lt_depthAll ht
      rw [depth] at hdepth
      omega
    exact reads_instance (Compressed.reads_token hgeneric.isSome) hlen hargs
  | @function convention generics ret params hregular _ _ ihret ihparams =>
    rw [depth] at hdepth
    have hparams : ∀ t ∈ params, Reads (readLevels .any (levels - 1)) t.write t := by
      intro t ht
      refine reads_of_succ (ihparams t ht) ?_
      have := depth_lt_depthAll ht
      omega
    exact reads_function
      (MethodSig.reads_readWith hregular (reads_of_succ ihret (by omega)) hparams)
  | modified hmodifier _ ih =>
    exact reads_modified (Compressed.reads_token hmodifier.isSome) (reads_of_succ ih hdepth)

/-- A type that can be written is read back wherever there are levels enough. -/
theorem Writable.reads {t : TypeSig} (h : t.Writable) {levels : Nat} (hdepth : t.depth < levels) :
    Reads (readLevels .any levels) t.write t :=
  reads_of_succ h.reads_succ hdepth

end TypeSig

/-! ### The round trip -/

/-- A type at any position, and a method signature at the beginning of its bytes: what can
be written and does not nest too deep for a reader is written, and read back from the bytes
written whatever follows them, up to where they end. -/
theorem signature_round_trip :
    (∀ s : MethodSig, s.Writable → s.depth ≤ TypeSig.nestingLimit →
      ∃ bytes, s.encode = .ok bytes ∧ ∀ suffix, MethodSig.parse (bytes ++ suffix) = .ok s ∧
        MethodSig.read.start (Cursor.start (bytes ++ suffix)) = (.ok s, ⟨bytes.length, suffix⟩)) ∧
    (∀ t : TypeSig, t.Writable → t.depth ≤ TypeSig.nestingLimit →
      ∃ bytes, t.encode = .ok bytes ∧ ∀ pos suffix,
        TypeSig.read.start ⟨pos, bytes ++ suffix⟩ = (.ok t, ⟨pos + bytes.length, suffix⟩)) := by
  constructor
  · intro s hs hdepth
    have hret : Reads (TypeSig.readLevels .any TypeSig.nestingLimit) s.ret.write s.ret := by
      apply hs.ret.reads
      unfold MethodSig.depth at hdepth
      omega
    have hparams : ∀ t ∈ s.params,
        Reads (TypeSig.readLevels .any TypeSig.nestingLimit) t.write t := by
      intro t ht
      apply (hs.params t ht).reads
      have := TypeSig.depth_lt_depthAll ht
      unfold MethodSig.depth at hdepth
      omega
    obtain ⟨bytes, hbytes, hstart⟩ := (MethodSig.reads_readWith hs.regular hret hparams).start
    refine ⟨bytes, hbytes, fun suffix => ?_⟩
    have hread : MethodSig.read.start (Cursor.start (bytes ++ suffix)) =
        (.ok s, ⟨bytes.length, suffix⟩) := by
      rw [← Nat.zero_add bytes.length]
      exact hstart 0 suffix
    exact ⟨congrArg Prod.fst hread, hread⟩
  · intro t ht hdepth
    exact (ht.reads (Nat.lt_succ_of_le hdepth)).start

namespace MethodSig

/-- A generic method that takes a variable argument list after a shaped array, returns a
pointer to a function and is given a generic type over its own parameter. -/
def variadicSample : MethodSig where
  convention := 0x35
  generics := 2
  ret := .function 0x00 0 (.primitive .void) [.byRef (.valueType ⟨0x02000004⟩)]
  params := [.array (.primitive .i4) 2 [3, 0x80] [0], .sentinel,
    .modified true ⟨0x01000012⟩ (.primitive .string),
    .instance_ false ⟨0x1B000001⟩ [.methodVar 1, .pinned (.primitive .object)]]

/-- Its bytes. -/
def variadicBytes : List UInt8 :=
  [0x35, 0x02, 0x03, 0x1B, 0x00, 0x01, 0x01, 0x10, 0x11, 0x10, 0x14, 0x08, 0x02, 0x02, 0x03, 0x80,
    0x80, 0x01, 0x00, 0x41, 0x1F, 0x49, 0x0E, 0x15, 0x12, 0x06, 0x02, 0x1E, 0x01, 0x45, 0x1C]

theorem variadicSample_writable : variadicSample.Writable where
  regular :=
    { kind := by decide
      unmarked := nofun
      generics_le := by decide
      last := by rintro _ ⟨⟩; rfl
      length_le := by decide }
  ret := by
    refine .function ⟨by decide, fun _ => rfl, by decide, ?_, by decide⟩ (.primitive _) ?_
    · rintro _ ⟨⟩
      rfl
    · intro t ht
      obtain rfl := List.mem_singleton.mp ht
      exact .byRef (.valueType (.inl rfl))
  params := by
    intro t ht
    simp only [variadicSample, List.mem_cons, List.not_mem_nil, or_false] at ht
    rcases ht with rfl | rfl | rfl | rfl
    · exact .array (.primitive _) (by decide) (by decide) (by decide) (by decide) (by decide)
    · exact .sentinel
    · exact .modified (.inr (.inl rfl)) (.primitive _)
    · refine .instance_ (.inr (.inr rfl)) (by decide) ?_
      intro t ht
      simp only [List.mem_cons, List.not_mem_nil, or_false] at ht
      rcases ht with rfl | rfl
      · exact .methodVar (by decide)
      · exact .pinned (.primitive _)

end MethodSig

/-- The mark inside the parameter list is kept and the three arguments are counted; a byte
that would be another mark may follow. -/
theorem signature_round_trip_variadicSample :
    MethodSig.variadicSample.Writable ∧ MethodSig.variadicSample.depth ≤ TypeSig.nestingLimit ∧
      MethodSig.variadicSample.encode = .ok MethodSig.variadicBytes ∧
      MethodSig.parse (MethodSig.variadicBytes ++ [0x41]) = .ok MethodSig.variadicSample := by
  have hdepth : MethodSig.variadicSample.depth ≤ TypeSig.nestingLimit := by decide
  have hbytes : MethodSig.variadicSample.encode = .ok MethodSig.variadicBytes := rfl
  refine ⟨MethodSig.variadicSample_writable, hdepth, hbytes, ?_⟩
  obtain ⟨bytes, h, hparse⟩ :=
    signature_round_trip.1 _ MethodSig.variadicSample_writable hdepth
  obtain rfl := Except.ok.inj (hbytes.symm.trans h)
  exact (hparse [0x41]).1

end CilProbe
