import LetLang.Proofs.Program.Attempts
import LetLang.Proofs.Program.Spelling
import LetLang.Proofs.Text.Decimal

/-!
# Integers in programs

An integer is read as the exact value of its digits or, above 64 bits, refused (`integers_exact`). A sign
in front of it is an operator of its own and plays no part in that. So the least number of 64 bits cannot
be written, unlike all the others (`ofText_integer`).
-/

namespace LetLang

open Text (byteLength)
open Token (Laid body nth placed endAt)

namespace Decimal

theorem read?_eq_placeValue {text : String} (nonempty : text.toList ≠ [])
    (digits : ∀ c ∈ text.toList, c.isDigit = true) :
    read? text = if placeValue text.toList < 2 ^ 63 then some (placeValue text.toList : Int) else none := by
  simp only [read?_of_digits nonempty (List.all_eq_true.2 digits), le_maximum_iff, value_eq_placeValue]

theorem read?_toString (n : Nat) : read? (toString n) = if n < 2 ^ 63 then some (n : Int) else none := by
  have digits := List.all_eq_true.2 fun c (member : c ∈ (toString n).toList) => isDigit_of_mem_toString member
  simp only [read?_of_digits (toString_ne_nil n) digits, le_maximum_iff, value_toString]

end Decimal

/-! ### Tokens of a number -/

namespace Token

variable {d : String} {p m stop : Nat} {rest : List Char} {ts : List Token}

theorem Laid.number (nonempty : d.toList ≠ []) (digits : ∀ c ∈ d.toList, c.isDigit = true)
    (clear : ∀ c ∈ rest.head?, c.isDigit = false) (place : p + byteLength d.toList = stop) (later : Laid stop rest ts) :
    Laid p (d.toList ++ rest) (⟨.int, d, ⟨p, stop⟩⟩ :: ts) := by
  subst place
  have laid := Laid.lexeme (.number nonempty digits) clear later
  rwa [placed, String.ofList_toList] at laid

theorem laid_toString_semicolon (place : p + byteLength (toString m).toList = stop) :
    Laid p ((toString m).toList ++ [';'])
      [⟨.int, toString m, ⟨p, stop⟩⟩, ⟨.semicolon, ";", ⟨stop, stop + 1⟩⟩, endAt (stop + 1)] := by
  have ends := Laid.lexeme lexeme_semicolon (by simp) (.nil (stop + 1))
  exact .number (Decimal.toString_ne_nil m) (fun c => Decimal.isDigit_of_mem_toString) (by rintro _ ⟨⟩; rfl) place ends

theorem ofText_natural (place : byteLength (toString m).toList = stop) : ofText (toString m ++ ";") =
    [⟨.int, toString m, ⟨0, stop⟩⟩, ⟨.semicolon, ";", ⟨stop, stop + 1⟩⟩, endAt (stop + 1)] := by
  have laid := laid_toString_semicolon ((Nat.zero_add _).trans place)
  exact (Laid.eq_ofText (by rwa [String.toList_append])).symm

theorem ofText_negative (place : 1 + byteLength (toString m).toList = stop) : ofText ("-" ++ toString m ++ ";") =
    [⟨.minus, "-", ⟨0, 1⟩⟩, ⟨.int, toString m, ⟨1, stop⟩⟩, ⟨.semicolon, ";", ⟨stop, stop + 1⟩⟩, endAt (stop + 1)] := by
  have laid := Laid.lexeme (lexeme_unary (.inr rfl)) (fun _ _ => rfl) (laid_toString_semicolon place)
  refine (Laid.eq_ofText ?_).symm
  rw [String.toList_append, String.toList_append, List.append_assoc]
  exact laid

end Token

/-! ### Numbers in expressions and programs -/

namespace Expr

/-- The number that an expression is, if it is one with any number of minus signs in front. -/
def number? : Expr → Option Int
  | int _ n => some n
  | unary _ operator operand => if operator = "-" then operand.number?.map (-·) else none
  | _ => none

end Expr

namespace Program

open LetLang.Expr (Answers)

variable {source d : String} {i k start stop : Nat} {n : Int} {f : Expr → Expr}

theorem ofText_digits (nonempty : d.toList ≠ []) (digits : ∀ c ∈ d.toList, c.isDigit = true) :
    ∃ t : Token, t = ⟨.int, d, ⟨0, byteLength d.toList⟩⟩ ∧
      if Decimal.placeValue d.toList < 2 ^ 63 then (ofText d).program.statements =
        [.expr t (.int t (Decimal.placeValue d.toList))] ∧ (ofText d).diagnostics = []
      else (ofText d).program.statements = [] ∧ (ofText d).diagnostics = [⟨.badNumber d, t.span⟩] := by
  refine ⟨_, rfl, ?_⟩
  generalize number : (⟨.int, d, ⟨0, byteLength d.toList⟩⟩ : Token) = t
  have text : t.text = d := by rw [← number]
  have shape : [t, endAt (byteLength d.toList)] = Token.ofText d := by
    have laid := Laid.number nonempty digits (by simp) (Nat.zero_add _) (.nil (byteLength d.toList))
    rw [List.append_nil, number] at laid
    exact laid.eq_ofText
  have count : (body d).length = 1 := by rw [body, ← shape]; rfl
  have first : nth d 0 = t := by rw [nth, count, ← shape]; rfl
  have next : nth d 1 = endAt (byteLength d.toList) := by rw [nth, count, ← shape]; rfl
  have plain : (nth d 0).kind.form? = none := by rw [first, ← number]; rfl
  have answer : Answers d .lowest 1 0 0 (Expr.ofNumber (nth d 0)) :=
    Expr.answers_number (by rw [first, ← number]) (by rw [next]; exact Nat.not_lt_zero _)
  rw [first, Expr.ofNumber, text, Decimal.read?_eq_placeValue nonempty digits] at answer
  have last : Yields d 1 [] [] := yields_nil (by omega)
  split
  · rename_i fits
    rw [if_pos fits] at answer
    have behind : behind d 0 = 1 := by rw [Program.behind, next]; rfl
    have given := Yields.expr plain (by omega) answer (by decide) (behind ▸ last)
    rw [first] at given
    exact ofText_of_yields given
  · rename_i large
    rw [if_neg large] at answer
    exact ofText_of_yields (.fault plain (by omega) answer (by decide) last)

theorem isNumber_of_mem {x : Stmt} {t : Token} {v : Int} (member : x ∈ (ofText source).program.statements)
    (node : .int t v ∈ x.value.nodes) : t.IsNumber ∧ v = Decimal.value t.text.toList := by
  cases (ofText_wellFormed source x member).value.of_mem_nodes node with
  | int number => exact ⟨number, rfl⟩

/-- Digits of any number are read as their exact value, if that fits in 64 bits, and else refused as a whole.
So every integer in a program is the exact value of its token and is shown as that token. It does not matter
whether the range is looked at at the end or, as in `checked?`, with each digit. -/
theorem integers_exact :
    (∀ d : String, d.toList ≠ [] → (∀ c ∈ d.toList, c.isDigit = true) →
      ∃ t : Token, t = ⟨.int, d, ⟨0, byteLength d.toList⟩⟩ ∧
        if Decimal.placeValue d.toList < 2 ^ 63 then (ofText d).program.statements =
          [.expr t (.int t (Decimal.placeValue d.toList))] ∧ (ofText d).diagnostics = []
        else (ofText d).program.statements = [] ∧ (ofText d).diagnostics = [⟨.badNumber d, t.span⟩]) ∧
    (∀ source, ∀ x ∈ (ofText source).program.statements, ∀ (t : Token) (n : Int), .int t n ∈ x.value.nodes →
      t.text.toList ≠ [] ∧ (∀ c ∈ t.text.toList, c.isDigit = true) ∧
        n = Decimal.placeValue t.text.toList ∧ 0 ≤ n ∧ n < 2 ^ 63 ∧ (Expr.int t n).render = t.text) ∧
    ∀ text : String, Decimal.read? text = Decimal.checked? text.toList := by
  refine ⟨fun d nonempty digits => ofText_digits nonempty digits, ?_, Decimal.read?_eq_checked?⟩
  intro source x member t n node
  obtain ⟨⟨-, nonempty, digits, fits⟩, rfl⟩ := isNumber_of_mem member node
  rw [Decimal.le_maximum_iff] at fits
  rw [Decimal.value_eq_placeValue] at fits ⊢
  exact ⟨nonempty, digits, rfl, by omega, by omega, rfl⟩

theorem integers_exact_padded : (∀ c ∈ "009223372036854775807".toList, c.isDigit = true) ∧
    (ofText "009223372036854775807").program.render = "009223372036854775807" ∧
    (ofText "009223372036854775807").diagnostics = [] := by
  have digits : ∀ c ∈ "009223372036854775807".toList, c.isDigit = true := List.all_eq_true.1 (by decide +kernel)
  obtain ⟨t, rfl, read⟩ := integers_exact.1 "009223372036854775807" (by decide +kernel) digits
  rw [if_pos (by decide +kernel)] at read
  refine ⟨digits, ?_, read.2⟩
  rw [Program.render, read.1]
  rfl

/-- A number with a semicolon behind it, where `f` adds what stands in front. -/
theorem ofText_number_semicolon (plain : (nth source 0).kind.form? = none)
    (answer : Answers source .lowest k 0 i ((Expr.ofNumber (nth source i)).map f)) (room : k ≤ Parse.maxDepth)
    (sign : ∀ t, (f (.int t n.natAbs)).number? = some n)
    (number : nth source i = ⟨.int, toString n.natAbs, ⟨start, stop⟩⟩)
    (semicolon : nth source (i + 1) = ⟨.semicolon, ";", ⟨stop, stop + 1⟩⟩)
    (count : (body source).length = i + 2) :
    if n.natAbs < 2 ^ 63 then (ofText source).diagnostics = [] ∧
      ∃ t e, (ofText source).program.statements = [.expr t e] ∧ e.number? = some n
    else (ofText source).program.statements = [] ∧ (ofText source).diagnostics =
      [⟨.badNumber (toString n.natAbs), ⟨start, stop⟩⟩, ⟨.noOpening .semicolon, ⟨stop, stop + 1⟩⟩] := by
  have last : Yields source (i + 2) [] [] := yields_nil (by omega)
  rw [number, Expr.ofNumber, Decimal.read?_toString] at answer
  split
  · rename_i fits
    rw [if_pos fits] at answer
    have behind : behind source i = i + 2 := by rw [Program.behind, if_pos (by rw [semicolon])]
    obtain ⟨statements, silent⟩ := ofText_of_yields (.expr plain (by omega) answer room (behind ▸ last))
    exact ⟨silent, _, _, statements, sign _⟩
  · rename_i large
    rw [if_neg large] at answer
    -- The fault leaves the semicolon to an attempt of its own.
    have refused : Answers source .lowest 1 (i + 1) (i + 1) _ := Expr.answers_refused (by rw [semicolon]; rfl)
    rw [semicolon] at refused
    have second := Yields.fault (by rw [semicolon]; rfl) (by omega) refused (by decide) last
    exact ofText_of_yields (.fault plain (by omega) answer room second)

/-- An integer in decimal is read as that integer if its digits alone fit in 64 bits. If not, and so for the
least number of 64 bits, there is no statement: the digits are refused, and so is the semicolon left over. -/
theorem ofText_integer (n : Int) :
    ∃ sign stop, sign = (if n < 0 then 1 else 0) ∧ stop = sign + byteLength (toString n.natAbs).toList ∧
      if n.natAbs < 2 ^ 63 then (ofText (toString n ++ ";")).diagnostics = [] ∧
        ∃ t e, (ofText (toString n ++ ";")).program.statements = [.expr t e] ∧ e.number? = some n
      else (ofText (toString n ++ ";")).program.statements = [] ∧ (ofText (toString n ++ ";")).diagnostics =
        [⟨.badNumber (toString n.natAbs), ⟨sign, stop⟩⟩, ⟨.noOpening .semicolon, ⟨stop, stop + 1⟩⟩] := by
  refine ⟨_, _, rfl, rfl, ?_⟩
  rw [Decimal.toString_eq_append]
  by_cases negative : n < 0
  · simp only [if_pos negative]
    generalize place : 1 + byteLength (toString n.natAbs).toList = stop
    have shape := Token.ofText_negative place
    generalize "-" ++ toString n.natAbs ++ ";" = source at shape ⊢
    have count : (body source).length = 3 := by rw [body, shape]; rfl
    have first : nth source 0 = ⟨.minus, "-", ⟨0, 1⟩⟩ := by rw [nth, count, shape]; rfl
    have second : nth source 1 = ⟨.int, toString n.natAbs, ⟨1, stop⟩⟩ := by rw [nth, count, shape]; rfl
    have third : nth source 2 = ⟨.semicolon, ";", ⟨stop, stop + 1⟩⟩ := by rw [nth, count, shape]; rfl
    have operand : Answers source .unary 1 1 1 _ :=
      Expr.answers_number (by rw [second]) (by rw [third]; exact Nat.not_lt_zero _)
    have answer : Answers source .lowest 2 0 1 _ :=
      operand.unary (by rw [first]; exact .inr rfl) (by rw [third]; exact Nat.not_lt_zero _)
    refine ofText_number_semicolon (by rw [first]; rfl) answer (by decide) (fun t => ?_) second third count
    rw [first]
    show some (-(n.natAbs : Int)) = some n
    congr 1
    omega
  · simp only [if_neg negative, String.empty_append, Nat.zero_add]
    generalize place : byteLength (toString n.natAbs).toList = stop
    have shape := Token.ofText_natural place
    generalize toString n.natAbs ++ ";" = source at shape ⊢
    have count : (body source).length = 2 := by rw [body, shape]; rfl
    have first : nth source 0 = ⟨.int, toString n.natAbs, ⟨0, stop⟩⟩ := by rw [nth, count, shape]; rfl
    have second : nth source 1 = ⟨.semicolon, ";", ⟨stop, stop + 1⟩⟩ := by rw [nth, count, shape]; rfl
    have alone : Expr.ofNumber (nth source 0) = (Expr.ofNumber (nth source 0)).map id := by rw [Except.map_id, id]
    have answer : Answers source .lowest 1 0 0 _ :=
      Expr.answers_number (by rw [first]) (by rw [second]; exact Nat.not_lt_zero _)
    rw [alone] at answer
    refine ofText_number_semicolon (by rw [first]; rfl) answer (by decide) (fun t => ?_) first second count
    show some (n.natAbs : Int) = some n
    congr 1
    omega

theorem ofText_minimum : Decimal.minimum = -2 ^ 63 ∧
    (ofText (toString Decimal.minimum ++ ";")).program.statements = [] ∧
    (ofText (toString Decimal.minimum ++ ";")).diagnostics =
      [⟨.badNumber "9223372036854775808", ⟨1, 20⟩⟩, ⟨.noOpening .semicolon, ⟨20, 21⟩⟩] := by decide +kernel

end Program

end LetLang
