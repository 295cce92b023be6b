/-
CilProbe/Proofs/Rule/Version.lean

What ranges of versions mean.  A bound says something about the components that it writes out
and nothing about the others, which are filled with the smallest component there is or with the
largest.  So a version is compared with a bound on as many components as are written out
(`append_zeros_le_iff`, `le_append_limits_iff`), and a range whose two bounds are the same text
holds the versions that begin with its components.

`IsBound` says how bounds are written: numerals with zeros or a plus sign in front or without
them, then stars, with white space around.  Main result: `range_compares_prefixes`.
-/
import CilProbe.Proofs.Outcome
import CilProbe.Proofs.Rule.FirstMatch
import CilProbe.Proofs.Rule.Pattern

namespace CilProbe

/-! ### Numerals -/

namespace Text

/-- A decimal numeral for a number: its digits, perhaps with zeros and a plus sign in front. -/
def Numeral (text : List Char) (n : Nat) : Prop :=
  ∃ sign zeros, (sign = [] ∨ sign = ['+']) ∧
    text = sign ++ (List.replicate zeros '0' ++ Nat.toDigits 10 n)

variable {text : List Char} {n limit : Nat}

theorem isDigit_of_mem_padded {zeros : Nat} {c : Char}
    (h : c ∈ List.replicate zeros '0' ++ Nat.toDigits 10 n) : c.isDigit = true := by
  rcases List.mem_append.mp h with h | h
  · rw [List.eq_of_mem_replicate h]
    rfl
  · exact Nat.isDigit_of_mem_toDigits (by decide) (by decide) h

theorem padded_ne_nil (zeros n : Nat) : List.replicate zeros '0' ++ Nat.toDigits 10 n ≠ [] :=
  List.append_ne_nil_of_right_ne_nil _ Nat.toDigits_ne_nil

/-- Zeros in front of a number do not change it. -/
theorem digitsValue?_padded (zeros n : Nat) :
    digitsValue? (List.replicate zeros '0' ++ Nat.toDigits 10 n) = some n := by
  have hdigits : (List.replicate zeros '0' ++ Nat.toDigits 10 n).all Char.isDigit = true :=
    List.all_eq_true.mpr fun c hc => isDigit_of_mem_padded hc
  have hvalue : Nat.ofDigitChars 10 (List.replicate zeros '0' ++ Nat.toDigits 10 n) 0 = n := by
    rw [Nat.ofDigitChars_append, Nat.ofDigitChars_replicate_zero, Nat.mul_zero,
      Nat.ofDigitChars_toDigits (by decide) (by decide)]
  rw [digitsValue?, if_pos hdigits]
  · exact congrArg some hvalue
  · exact padded_ne_nil zeros n

theorem Numeral.ne_nil (h : Numeral text n) : text ≠ [] := by
  obtain ⟨sign, zeros, -, rfl⟩ := h
  exact List.append_ne_nil_of_right_ne_nil _ (padded_ne_nil zeros n)

theorem Numeral.mem (h : Numeral text n) {c : Char} (hc : c ∈ text) :
    c = '+' ∨ c.isDigit = true := by
  obtain ⟨sign, zeros, hsign, rfl⟩ := h
  rcases List.mem_append.mp hc with hc | hc
  · rcases hsign with rfl | rfl
    · cases hc
    · exact .inl (List.mem_singleton.mp hc)
  · exact .inr (isDigit_of_mem_padded hc)

/-- A numeral is read as its number. -/
theorem Numeral.readDecimal? (h : Numeral text n) (hn : n ≤ limit) :
    Text.readDecimal? limit (String.ofList text) = some n := by
  obtain ⟨sign, zeros, hsign, rfl⟩ := h
  have hvalue := digitsValue?_padded zeros n
  unfold Text.readDecimal?
  rw [String.toList_ofList]
  rcases hsign with rfl | rfl
  · rw [List.nil_append]
    cases hdigits : List.replicate zeros '0' ++ Nat.toDigits 10 n with
    | nil => exact absurd hdigits (padded_ne_nil zeros n)
    | cons c cs =>
      -- the first digit is not taken for a sign
      have hne : c ≠ '+' := by
        rintro rfl
        have hmem : '+' ∈ List.replicate zeros '0' ++ Nat.toDigits 10 n := by
          rw [hdigits]
          exact List.mem_cons_self
        have hdigit := isDigit_of_mem_padded hmem
        cases hdigit
      rw [hdigits] at hvalue
      split
      next digits heq =>
        cases heq
        exact absurd rfl hne
      · simp [hvalue, hn]
  · simp [hvalue, hn]

/-! ### Trimming -/

/-- Nothing but what is in front of the first other character is dropped. -/
theorem dropWhile_around {α : Type} {p : α → Bool} {before cs after : List α}
    (hbefore : ∀ c ∈ before, p c = true) (hcs : ∀ c ∈ cs, p c = false) (hne : cs ≠ []) :
    (before ++ (cs ++ after)).dropWhile p = cs ++ after := by
  obtain ⟨c, cs, rfl⟩ := List.exists_cons_of_ne_nil hne
  rw [List.dropWhile_append_of_pos hbefore, List.cons_append, List.dropWhile_cons_of_neg]
  rw [hcs c List.mem_cons_self]
  exact Bool.false_ne_true

theorem trimChars_around {before cs after : List Char} (hbefore : ∀ c ∈ before, isBlank c = true)
    (hafter : ∀ c ∈ after, isBlank c = true) (hcs : ∀ c ∈ cs, isBlank c = false) (hne : cs ≠ []) :
    trimChars (before ++ (cs ++ after)) = cs := by
  have hback : (after.reverse ++ (cs.reverse ++ [])).dropWhile isBlank = cs.reverse ++ [] :=
    dropWhile_around (by simpa using hafter) (by simpa using hcs) (by simpa using hne)
  rw [List.append_nil] at hback
  rw [trimChars, dropWhile_around hbefore hcs hne, List.reverse_append, hback, List.reverse_reverse]

theorem isBlank_of_isDigit {c : Char} (h : c.isDigit = true) : isBlank c = false := by
  have hrange : 48 ≤ c.toNat ∧ c.toNat ≤ 57 := by
    simpa [Char.isDigit, Char.le_def, UInt32.le_iff_toNat_le] using h
  simp only [isBlank, Bool.or_eq_false_iff, Bool.and_eq_false_iff, decide_eq_false_iff_not,
    beq_eq_false_iff_ne]
  omega

/-- A character of joined pieces is the separator or stands in a piece. -/
theorem mem_intercalate {sep c : Char} {pieces : List (List Char)}
    (h : c ∈ [sep].intercalate pieces) : c = sep ∨ ∃ piece ∈ pieces, c ∈ piece := by
  induction pieces with
  | nil => cases h
  | cons piece pieces ih =>
    cases pieces with
    | nil =>
      rw [List.intercalate_singleton] at h
      exact .inr ⟨piece, List.mem_cons_self, h⟩
    | cons next pieces =>
      rw [List.intercalate_cons_cons, List.mem_append, List.mem_append] at h
      rcases h with (h | h) | h
      · exact .inr ⟨piece, List.mem_cons_self, h⟩
      · exact .inl (List.mem_singleton.mp h)
      · exact (ih h).imp_right fun ⟨q, hq, hc⟩ => ⟨q, List.mem_cons_of_mem _ hq, hc⟩

end Text

/-! ### Bounds -/

namespace AssemblyVersion

/-- A text is a bound that writes out the given components: numerals for them and then stars, one
to four pieces in all, with points in between and white space around them. -/
inductive IsBound : String → List UInt16 → Prop
  | intro {text : String} {explicit : List UInt16} (before after : List Char)
      (numerals : List (List Char)) (stars : Nat)
      (numeral : List.Forall₂ (fun digits c => Text.Numeral digits c.toNat) numerals explicit)
      (pos : 1 ≤ explicit.length + stars) (le_four : explicit.length + stars ≤ 4)
      (before_blank : ∀ c ∈ before, Text.isBlank c = true)
      (after_blank : ∀ c ∈ after, Text.isBlank c = true)
      (spelled : text.toList =
        before ++ (['.'].intercalate (numerals ++ List.replicate stars ['*']) ++ after)) :
      IsBound text explicit

variable {open_ : UInt16} {text : String} {explicit comps : List UInt16}
  {numerals pieces : List (List Char)} {stars : Nat}

/-- What stands between the points: something, without points and white space. -/
def Plain (piece : List Char) : Prop :=
  piece ≠ [] ∧ ∀ c ∈ piece, c ≠ '.' ∧ Text.isBlank c = false

theorem plain_of_numeral {digits : List Char} {n : Nat} (h : Text.Numeral digits n) :
    Plain digits := by
  refine ⟨h.ne_nil, fun c hc => ?_⟩
  rcases h.mem hc with rfl | hdigit
  · decide
  · refine ⟨?_, Text.isBlank_of_isDigit hdigit⟩
    rintro rfl
    cases hdigit

theorem plain_star : Plain ['*'] := by
  refine ⟨List.cons_ne_nil _ _, fun c hc => ?_⟩
  obtain rfl := List.mem_singleton.mp hc
  decide

/-- Plain pieces are found again between the points when the text around them is trimmed. -/
theorem split_trim {before after : List Char} (hne : pieces ≠ []) (hplain : ∀ p ∈ pieces, Plain p)
    (hbefore : ∀ c ∈ before, Text.isBlank c = true) (hafter : ∀ c ∈ after, Text.isBlank c = true)
    (htext : text.toList = before ++ (['.'].intercalate pieces ++ after)) :
    Text.split '.' (Text.trim text) = pieces.map String.ofList := by
  have hdotted : Text.Dotted (['.'].intercalate pieces) pieces :=
    ⟨hne, fun piece hmem hdot => ((hplain piece hmem).2 _ hdot).1 rfl, rfl⟩
  have hsplit := Text.dotted_iff.mp hdotted
  have hjoined : ['.'].intercalate pieces ≠ [] := by
    intro hnil
    rw [hnil] at hsplit
    exact (hplain [] (hsplit ▸ List.mem_singleton_self _)).1 rfl
  have hblank : ∀ c ∈ ['.'].intercalate pieces, Text.isBlank c = false := by
    intro c hc
    rcases Text.mem_intercalate hc with rfl | ⟨piece, hmem, hc⟩
    · rfl
    · exact ((hplain piece hmem).2 c hc).2
  rw [Text.split, Text.trim, String.toList_ofList, htext,
    Text.trimChars_around hbefore hafter hblank hjoined, hsplit]

theorem readComponent?_numeral {digits : List Char} {c : UInt16}
    (h : Text.Numeral digits c.toNat) : readComponent? open_ (String.ofList digits) = some c := by
  have hstar : String.ofList digits ≠ "*" := by
    intro heq
    obtain rfl : digits = ['*'] := String.ofList_injective heq
    rcases h.mem List.mem_cons_self with hc | hc
    · cases hc
    · cases hc
  have hle : c.toNat ≤ componentLimit := Nat.le_of_lt_succ c.toNat_lt
  rw [readComponent?, if_neg hstar, h.readDecimal? hle, Option.map_some, UInt16.ofNat_toNat]

/-- Pieces are read one by one. -/
theorem mapM_readComponent?
    (h : List.Forall₂ (fun piece c => readComponent? open_ (String.ofList piece) = some c)
      pieces comps) :
    (pieces.map String.ofList).mapM (readComponent? open_) = some comps := by
  induction h with
  | nil => rfl
  | cons hpiece _ ih => simp [hpiece, ih]

/-- One to four components make a version, and the others are open. -/
theorem exists_ofComponents? (open_ : UInt16) (hpos : 1 ≤ comps.length) (hle : comps.length ≤ 4) :
    ∃ v, ofComponents? open_ comps = some v ∧
      v.components = comps ++ List.replicate (4 - comps.length) open_ := by
  match comps with
  | [a] => exact ⟨_, rfl, rfl⟩
  | [a, b] => exact ⟨_, rfl, rfl⟩
  | [a, b, c] => exact ⟨_, rfl, rfl⟩
  | [a, b, c, d] => exact ⟨_, rfl, rfl⟩
  | [] => exact absurd hpos (by decide)
  | _ :: _ :: _ :: _ :: _ :: rest =>
    simp only [List.length_cons] at hle
    omega

/-- A bound is read as the components it writes out, and fills the others. -/
theorem IsBound.read (h : IsBound text explicit) (open_ : UInt16) :
    ∃ v, readBound open_ text = .ok v ∧
      v.components = explicit ++ List.replicate (4 - explicit.length) open_ := by
  cases h with
  | intro before after numerals stars hnumeral hpos hle hbefore hafter hspelled =>
  have hplain : ∀ p ∈ numerals ++ List.replicate stars ['*'], Plain p := by
    rw [List.forall_mem_append]
    have hnumerals := hnumeral.imp fun _ _ h => And.intro (plain_of_numeral h) h
    refine ⟨((List.forall₂_and_left _ _).mp hnumerals).1, ?_⟩
    exact fun p hp => List.eq_of_mem_replicate hp ▸ plain_star
  have hcomps : List.Forall₂ (fun piece c => readComponent? open_ (String.ofList piece) = some c)
      (numerals ++ List.replicate stars ['*']) (explicit ++ List.replicate stars open_) := by
    refine List.rel_append (hnumeral.imp fun _ _ => readComponent?_numeral) ?_
    exact List.forall₂_iff_get.mpr ⟨by simp, fun i _ _ => by simp [readComponent?]⟩
  have hlen : (explicit ++ List.replicate stars open_).length = explicit.length + stars := by simp
  have hne : numerals ++ List.replicate stars ['*'] ≠ [] :=
    List.ne_nil_of_length_pos (by rw [hcomps.length_eq, hlen]; exact hpos)
  obtain ⟨v, hv, hcomponents⟩ := exists_ofComponents? open_ (hlen ▸ hpos) (hlen ▸ hle)
  refine ⟨v, ?_, ?_⟩
  · unfold readBound
    rw [split_trim hne hplain hbefore hafter hspelled]
    simp only [mapM_readComponent? hcomps, Option.bind_eq_bind, Option.bind_some, hv]
  · -- the stars are as many open components as they stand for
    have hopen : stars + (4 - (explicit.length + stars)) = 4 - explicit.length := by omega
    rw [hcomponents, hlen, List.append_assoc, List.replicate_append_replicate, hopen]

theorem IsBound.length_le (h : IsBound text explicit) : explicit.length ≤ 4 := by
  cases h with
  | intro _ _ _ _ _ _ hle => exact Nat.le_trans (Nat.le_add_right _ _) hle

/-- A version is displayed as a bound that writes out all components. -/
theorem isBound_display (v : AssemblyVersion) : IsBound v.display v.components := by
  refine .intro [] [] (v.components.map fun c => Nat.toDigits 10 c.toNat) 0 ?_
    (by simp [components]) (by simp [components]) nofun nofun ?_
  · rw [List.forall₂_map_left_iff, List.forall₂_same]
    exact fun c _ => ⟨[], 0, .inl rfl, rfl⟩
  · rw [display, String.toList_intercalate, List.map_map]
    simp [Function.comp_def]

theorem components_inj {v w : AssemblyVersion} (h : v.components = w.components) : v = w := by
  cases v
  cases w
  simpa [components] using h

end AssemblyVersion

/-! ### Comparing with bounds -/

section

variable {as bs vs : List UInt16} {k : Nat}

theorem replicate_zero_le (h : vs.length = k) : List.replicate k 0 ≤ vs := by
  induction k generalizing vs with
  | zero => exact List.nil_le vs
  | succ k ih =>
    obtain ⟨v, vs, rfl⟩ := List.exists_cons_of_length_eq_add_one h
    rw [List.replicate_succ, List.cons_le_cons_iff]
    rcases eq_or_ne 0 v with rfl | hne
    · exact .inr ⟨rfl, ih (by simpa using h)⟩
    · left
      have hne' : v.toNat ≠ 0 := fun heq => hne (UInt16.toNat_inj.mp heq.symm)
      rw [UInt16.lt_iff_toNat_lt]
      exact Nat.pos_of_ne_zero hne'

theorem le_replicate_limit (h : vs.length = k) : vs ≤ List.replicate k 65535 := by
  induction k generalizing vs with
  | zero => rw [List.length_eq_zero_iff.mp h]; exact List.nil_le _
  | succ k ih =>
    obtain ⟨v, vs, rfl⟩ := List.exists_cons_of_length_eq_add_one h
    rw [List.replicate_succ, List.cons_le_cons_iff]
    rcases eq_or_ne v 65535 with rfl | hne
    · exact .inr ⟨rfl, ih (by simpa using h)⟩
    · left
      have hlt := v.toNat_lt
      have hne' : v.toNat ≠ 65535 := fun heq => hne (UInt16.toNat_inj.mp heq)
      rw [UInt16.lt_iff_toNat_lt]
      show v.toNat < 65535
      omega

/-- Components filled with zeros are below a list if what is written out is below its beginning. -/
theorem append_zeros_le_iff (h : vs.length = as.length + k) :
    as ++ List.replicate k 0 ≤ vs ↔ as ≤ vs.take as.length := by
  induction as generalizing vs with
  | nil => exact iff_of_true (replicate_zero_le (by simpa using h)) (List.nil_le _)
  | cons a as ih =>
    rw [List.length_cons, Nat.add_right_comm] at h
    obtain ⟨v, vs, rfl⟩ := List.exists_cons_of_length_eq_add_one h
    rw [List.cons_append, List.cons_le_cons_iff, List.length_cons, List.take_succ_cons,
      List.cons_le_cons_iff, ih (Nat.succ.inj h)]

/-- Components filled with the limit are above a list if what is written out is above its
beginning. -/
theorem le_append_limits_iff (h : vs.length = bs.length + k) :
    vs ≤ bs ++ List.replicate k 65535 ↔ vs.take bs.length ≤ bs := by
  induction bs generalizing vs with
  | nil => exact iff_of_true (le_replicate_limit (by simpa using h)) (List.nil_le _)
  | cons b bs ih =>
    rw [List.length_cons, Nat.add_right_comm] at h
    obtain ⟨v, vs, rfl⟩ := List.exists_cons_of_length_eq_add_one h
    rw [List.cons_append, List.cons_le_cons_iff, List.length_cons, List.take_succ_cons,
      List.cons_le_cons_iff, ih (Nat.succ.inj h)]

/-- Lists between a beginning of their own and itself start with it. -/
theorem le_take_and_take_le_iff {n : Nat} (h : as.length = n) :
    as ≤ vs.take n ∧ vs.take n ≤ as ↔ as <+: vs := by
  rw [List.prefix_iff_eq_take, h]
  refine ⟨fun hle => List.le_antisymm hle.1 hle.2, fun heq => ?_⟩
  rw [← heq]
  exact ⟨List.le_refl as, List.le_refl as⟩

end

/-! ### Ranges -/

open AssemblyVersion

/-- A range holds the versions that are neither below its lower bound nor above its upper bound
as far as these are written out. -/
theorem VersionRange.parse_bounds {low high : String} {as bs : List UInt16} (hlow : IsBound low as)
    (hhigh : IsBound high bs) :
    ∃ r, parse low high = .ok r ∧ ∀ v : AssemblyVersion, r.contains v = true ↔
      as ≤ v.components.take as.length ∧ v.components.take bs.length ≤ bs := by
  obtain ⟨l, hl, hlcomps⟩ := hlow.read 0
  obtain ⟨h, hh, hhcomps⟩ := hhigh.read 65535
  refine ⟨⟨l, h⟩, bind_eq_ok.mpr ⟨l, hl, bind_eq_ok.mpr ⟨h, hh, rfl⟩⟩, fun v => ?_⟩
  have hlowLength : v.components.length = as.length + (4 - as.length) :=
    (Nat.add_sub_of_le hlow.length_le).symm
  have hhighLength : v.components.length = bs.length + (4 - bs.length) :=
    (Nat.add_sub_of_le hhigh.length_le).symm
  rw [VersionRange.contains_iff, hlcomps, hhcomps, append_zeros_le_iff hlowLength,
    le_append_limits_iff hhighLength]

/-- Bounds are compared with as many components of a version as they write out, by the first
difference; a text that is both bounds stands for the versions that begin with what it writes
out.  What is displayed for a version is read as that version. -/
theorem range_compares_prefixes :
    (∀ {low high : String} {as bs : List UInt16}, IsBound low as → IsBound high bs →
      ∃ r, VersionRange.parse low high = .ok r ∧ ∀ v : AssemblyVersion, r.contains v = true ↔
        as ≤ v.components.take as.length ∧ v.components.take bs.length ≤ bs) ∧
    (∀ {text : String} {as : List UInt16}, IsBound text as →
      ∃ r, VersionRange.parse text text = .ok r ∧
        ∀ v : AssemblyVersion, r.contains v = true ↔ as <+: v.components) ∧
    ∀ v : AssemblyVersion, AssemblyVersion.parse v.display = .ok v := by
  refine ⟨VersionRange.parse_bounds, fun {text as} h => ?_, fun v => ?_⟩
  · obtain ⟨r, hr, hcontains⟩ := VersionRange.parse_bounds h h
    exact ⟨r, hr, fun v => (hcontains v).trans (le_take_and_take_le_iff rfl)⟩
  · obtain ⟨w, hw, hcomponents⟩ := (isBound_display v).read 0
    have hfull : w.components = v.components ++ [] := hcomponents
    rw [List.append_nil] at hfull
    rw [AssemblyVersion.parse, hw, components_inj hfull]

/-- All of 2.3 and what comes after it, up to the last version that begins with 2; and all that
begins with 2. -/
theorem range_compares_prefixes_minor :
    IsBound "2.+03.0" [2, 3, 0] ∧ IsBound " 2.*.*" [2] ∧
      (∃ r, VersionRange.parse "2.+03.0" " 2.*.*" = .ok r ∧
        r.contains ⟨2, 65535, 9, 1⟩ = true ∧ r.contains ⟨2, 3, 0, 0⟩ = true ∧
        r.contains ⟨2, 2, 65535, 65535⟩ = false ∧ r.contains ⟨3, 0, 0, 0⟩ = false) ∧
      ∃ r, VersionRange.parse " 2.*.*" " 2.*.*" = .ok r ∧
        r.contains ⟨2, 0, 0, 0⟩ = true ∧ r.contains ⟨1, 65535, 65535, 65535⟩ = false := by
  have hlow : IsBound "2.+03.0" [2, 3, 0] :=
    .intro [] [] [['2'], ['+', '0', '3'], ['0']] 0
      (.cons ⟨[], 0, .inl rfl, rfl⟩ (.cons ⟨['+'], 1, .inr rfl, rfl⟩
        (.cons ⟨[], 0, .inl rfl, rfl⟩ .nil))) (by decide) (by decide) nofun nofun rfl
  have hhigh : IsBound " 2.*.*" [2] :=
    .intro [' '] [] [['2']] 2 (.cons ⟨[], 0, .inl rfl, rfl⟩ .nil) (by decide) (by decide)
      (List.forall_mem_singleton.mpr rfl) nofun rfl
  obtain ⟨r, hr, hcontains⟩ := range_compares_prefixes.1 hlow hhigh
  obtain ⟨r', hr', hcontains'⟩ := range_compares_prefixes.2.1 hhigh
  refine ⟨hlow, hhigh, ⟨r, hr, (hcontains _).mpr (by decide), (hcontains _).mpr (by decide), ?_,
    ?_⟩, r', hr', (hcontains' _).mpr (by decide), ?_⟩
  · exact Bool.eq_false_iff.mpr fun h => absurd ((hcontains _).mp h) (by decide)
  · exact Bool.eq_false_iff.mpr fun h => absurd ((hcontains _).mp h) (by decide)
  · exact Bool.eq_false_iff.mpr fun h => absurd ((hcontains' _).mp h) (by decide)

end CilProbe
