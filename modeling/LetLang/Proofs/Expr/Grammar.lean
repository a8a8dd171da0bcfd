import LetLang.Proofs.Expr.Run
import LetLang.Proofs.Token.Number

/-!
# The grammar of expressions

`Derives` is the grammar that binding powers describe, with the depth of nesting of each form.
`parse_ok_iff` says that reading an expression succeeds exactly on its forms, and `parse_iff_spelled`
says so for any state over a source.
-/

namespace LetLang.Expr

open Parse (Reader State)
open Token (Kind Window)

/-- `Derives root ts e n`: the tokens are a form of `e` that nests `n` deep. A unary form has no
root; that of an infix form is the power of its operator outside all parentheses. -/
inductive Derives : Option Power → List Token → Expr → Nat → Prop where
  | ident {t} (kind : t.kind = .ident) : Derives none [t] (.ident t t.text) 1
  | int {t} (kind : t.kind = .int) (fits : (Decimal.value t.text.toList : Int) ≤ Decimal.maximum) :
      Derives none [t] (.int t (Decimal.value t.text.toList)) 1
  | bool {t} (kind : t.kind = .kwTrue ∨ t.kind = .kwFalse) :
      Derives none [t] (.bool t (t.kind = .kwTrue)) 1
  | unary {t ts e n} (kind : t.kind = .bang ∨ t.kind = .minus) (operand : Derives none ts e n) :
      Derives none (t :: ts) (.unary t t.text e) (1 + n)
  | group {a b root ts e n} (opened : a.kind = .openParen) (closed : b.kind = .closeParen)
      (tighter : ∀ q ∈ root, Power.lowest < q) (inner : Derives root ts e n) :
      Derives none (a :: ts ++ [b]) e (1 + n)
  | binary {o lroot ls l m rroot rs r n} (operator : o.kind.isOperator = true)
      (atLeast : ∀ q ∈ lroot, o.kind.power ≤ q) (left : Derives lroot ls l m)
      (tighter : ∀ q ∈ rroot, o.kind.power < q) (right : Derives rroot rs r n) :
      Derives (some o.kind.power) (ls ++ o :: rs) (.binary o o.text l r) (max m (1 + n))

/-- The expressions of a binding power: unary forms, and infix forms with a tighter root. -/
def Spells (power : Power) (ts : List Token) (e : Expr) (n : Nat) : Prop :=
  ∃ root, (∀ q ∈ root, power < q) ∧ Derives root ts e n

variable {task : Task} {s t : State} {r : Outcome} {p : Power} {e left : Expr} {d : Diagnostic}
  {root : Option Power} {ts : List Token} {n : Nat} {v : Window}

theorem Derives.ne_nil (h : Derives root ts e n) : ts ≠ [] := by
  cases h <;> simp

theorem Derives.pos (h : Derives root ts e n) : 0 < n := by
  cases h <;> omega

theorem Derives.root_eq_none (h : Derives root ts e n) (tighter : ∀ q ∈ root, Power.unary < q) :
    root = none := by
  cases h with
  | @binary o =>
    have above : Power.unary.rank < o.kind.power.rank := tighter _ rfl
    have below : o.kind.power.rank < Power.unary.rank := o.kind.power_lt_unary
    omega
  | _ => rfl

theorem lowest_lt_iff {k : Kind} : Power.lowest < k.power ↔ k.isOperator = true :=
  k.isOperator_iff.symm

theorem isOperator_of_lt {k : Kind} (h : p < k.power) : k.isOperator = true :=
  lowest_lt_iff.1 (Nat.lt_of_le_of_lt (Nat.zero_le p.rank) h)

/-! ### What is read is a form -/

/-- What a successful run has read. The left operand of a `climb` was read from `w` on. -/
def Sound : Task → State → Outcome → Prop
  | .whole p, s, .ok e t => ∃ ts n, s.window.Reads ts t.window ∧ Spells p ts e n ∧
      n + s.depth ≤ Parse.maxDepth ∧ t.ahead.kind.power ≤ p
  | .body p, s, .ok e t => s.depth ≤ Parse.maxDepth →
      ∃ ts n, s.window.Reads ts t.window ∧ Spells p ts e n ∧
        n + s.depth ≤ Parse.maxDepth + 1 ∧ t.ahead.kind.power ≤ p
  | .opening, s, .ok e t => s.depth ≤ Parse.maxDepth →
      ∃ ts n, s.window.Reads ts t.window ∧ Derives none ts e n ∧ n + s.depth ≤ Parse.maxDepth + 1
  | .climb p left, s, .ok e t => ∀ (w : Window) root ls m, w.Reads ls s.window → Derives root ls left m →
      (∀ q ∈ root, p < q) → (∀ q ∈ root, s.ahead.kind.power ≤ q) → m + s.depth ≤ Parse.maxDepth + 1 →
      ∃ ts n, w.Reads ts t.window ∧ Spells p ts e n ∧
        n + s.depth ≤ Parse.maxDepth + 1 ∧ t.ahead.kind.power ≤ p
  | _, _, .error .. => True

theorem Run.sound (h : Run task s r) (numeric : s.window.Numeric) : Sound task s r := by
  induction h with
  | @whole s p r room body ih =>
    cases r with
    | error d t => trivial
    | ok e t =>
      obtain ⟨ts, n, moved, spelled, bound, weak⟩ := ih numeric room
      have inside : n + (s.depth + 1) ≤ Parse.maxDepth + 1 := bound
      exact ⟨ts, n, moved, spelled, by omega, weak⟩
  | @opened s p left t r opening rest first second =>
    cases r with
    | error d u => trivial
    | ok e u =>
      intro room
      obtain ⟨ts, n, moved, derived, bound⟩ := first numeric room
      have same := opening.depth_eq
      obtain ⟨before, -, -, passed⟩ := id moved
      have result := second (numeric.passes passed) s.window none ts n moved derived
        (by simp) (by simp) (by omega)
      rwa [same] at result
  | ident kind =>
    intro room
    have shape := opening?_eq_ident.1 kind
    exact ⟨_, 1, Window.reads_single (ne_eof_of_opening? kind), .ident shape, by omega⟩
  | @int s n kind value =>
    intro room
    have shape := opening?_eq_int.1 kind
    have digits : s.current.Numeric := numeric.current
    obtain ⟨fits, rfl⟩ := (digits.read?_eq_some_iff shape).1 value
    exact ⟨_, 1, Window.reads_single (ne_eof_of_opening? kind), .int shape fits, by omega⟩
  | bool kind =>
    intro room
    have shape := opening?_eq_bool.1 kind
    exact ⟨_, 1, Window.reads_single (ne_eof_of_opening? kind), .bool shape, by omega⟩
  | @unary s e t kind operand ih =>
    intro room
    have shape := ne_eof_of_opening? kind
    obtain ⟨ts, n, moved, ⟨root, tighter, derived⟩, bound, weak⟩ :=
      ih (numeric.passes (.step shape))
    obtain rfl := derived.root_eq_none tighter
    exact ⟨_, 1 + n, .cons shape moved, .unary (opening?_eq_unary.1 kind) derived, by
      have : n + s.depth ≤ Parse.maxDepth := bound
      omega⟩
  | @group s e t kind inner closed ih =>
    intro room
    have shape := ne_eof_of_opening? kind
    obtain ⟨ts, n, moved, ⟨root, tighter, derived⟩, bound, weak⟩ :=
      ih (numeric.passes (.step shape))
    have last : t.ahead.kind ≠ .eof := by rw [closed]; decide
    exact ⟨_, 1 + n, (Window.Reads.cons shape moved).concat last,
      .group (opening?_eq_group.1 kind) closed tighter derived, by
        have : n + s.depth ≤ Parse.maxDepth := bound
        omega⟩
  | @stop s p left weak =>
    intro w root ls m moved derived tighter _ bound
    exact ⟨ls, m, moved, ⟨root, tighter, derived⟩, bound, Power.not_lt.1 weak⟩
  | @step s p left right t r tight operand rest first second =>
    cases r with
    | error d u => trivial
    | ok e u =>
      intro w root ls m moved derived tighter atLeast bound
      have operator := isOperator_of_lt tight
      have onto := (Window.Passes.step moved.last_ne_eof).trans (.step (ne_eof_of_power_lt tight))
      obtain ⟨rs, n, further, ⟨rroot, rtighter, rderived⟩, rbound, weak⟩ :=
        first (numeric.passes onto)
      have same : t.depth = s.depth := operand.depth_eq
      have rest' : n + s.depth ≤ Parse.maxDepth := rbound
      obtain ⟨before, -, -, passed⟩ := id further
      -- The left operand grows: from `w` on, the tree read so far is the left operand of the rest.
      have result := second ((numeric.passes onto).passes passed) w (some s.ahead.kind.power) _ _
        (moved.binary (ne_eof_of_power_lt tight) further)
        (.binary operator atLeast derived rtighter rderived) (by simpa using tight)
        (by rintro q ⟨⟩; exact weak) (by change max m (1 + n) + t.depth ≤ _; omega)
      change ∃ ts n, _ ∧ _ ∧ n + t.depth ≤ _ ∧ _ at result
      rwa [same] at result
  | _ => trivial

/-! ### Every form is read -/

theorem Run.close (room : s.depth < Parse.maxDepth)
    (inside : ∀ r, Run (.climb p e) t r → Run (.body p) s.enter r) (weak : t.ahead.kind.power ≤ p) :
    Run (.whole p) s (.ok e t.leave) := .whole room (inside _ (.stop (Power.not_lt.2 weak)))

theorem depth_leave (h : t.depth = s.enter.depth) : t.leave.depth = s.depth := by
  change t.depth - 1 = s.depth
  rw [h]
  rfl

theorem power_le_unary (k : Kind) : k.power ≤ .unary := Nat.le_of_lt k.power_lt_unary

/-- Reading gets behind a form and goes on with it as the left operand. -/
theorem Derives.run (h : Derives root ts e n) (numeric : s.window.Numeric) (moved : s.window.Reads ts v)
    (bound : n + s.depth ≤ Parse.maxDepth + 1) (tighter : ∀ q ∈ root, p < q)
    (weak : ∀ q ∈ root, v.ahead.kind.power ≤ q) :
    ∃ t, t.window = v ∧ t.depth = s.depth ∧ ∀ r, Run (.climb p e) t r → Run (.body p) s r := by
  induction h generalizing s v p with
  | ident kind =>
    obtain ⟨rfl, rfl⟩ := Window.reads_singleton moved
    exact ⟨s, rfl, rfl, fun r rest => .opened (.ident (opening?_eq_ident.2 kind)) rest⟩
  | int kind fits =>
    obtain ⟨rfl, rfl⟩ := Window.reads_singleton moved
    have digits : s.current.Numeric := numeric.current
    have value := (digits.read?_eq_some_iff kind).2 ⟨fits, rfl⟩
    exact ⟨s, rfl, rfl, fun r rest => .opened (.int (opening?_eq_int.2 kind) value) rest⟩
  | bool kind =>
    obtain ⟨rfl, rfl⟩ := Window.reads_singleton moved
    exact ⟨s, rfl, rfl, fun r rest => .opened (.bool (opening?_eq_bool.2 kind)) rest⟩
  | @unary x ts e n kind operand ih =>
    have first := moved.first_ne_eof
    obtain ⟨rfl, further⟩ := Window.reads_cons moved operand.ne_nil
    have pos := operand.pos
    have deeper : s.advance.enter.depth = s.depth + 1 := rfl
    obtain ⟨t, rfl, same, inside⟩ := ih (s := s.advance.enter) (p := .unary)
      (numeric.passes (.step first)) further (by omega) (by simp) (by simp)
    have room : s.advance.depth < Parse.maxDepth := by
      change s.depth < _
      omega
    have run := Run.close room inside (power_le_unary _)
    exact ⟨t.leave, rfl, depth_leave same, fun r rest =>
      .opened (.unary (opening?_eq_unary.2 kind) run) rest⟩
  | @group a b root ts e n opened closed above inner ih =>
    have first := moved.first_ne_eof
    obtain ⟨rfl, further⟩ := Window.reads_cons moved (by simp)
    obtain ⟨u, within, rfl, rfl⟩ := Window.reads_concat further inner.ne_nil
    have pos := inner.pos
    have deeper : s.advance.enter.depth = s.depth + 1 := rfl
    have low : u.ahead.kind.power = .lowest := by rw [closed]; rfl
    obtain ⟨t, rfl, same, inside⟩ := ih (s := s.advance.enter) (p := .lowest)
      (numeric.passes (.step first)) within (by omega) above
      (by rw [low]; exact fun q _ => Nat.zero_le q.rank)
    have room : s.advance.depth < Parse.maxDepth := by
      change s.depth < _
      omega
    have run := Run.close room inside (by rw [State.ahead, low]; exact Nat.le_refl _)
    exact ⟨t.leave.advance, rfl, depth_leave same, fun r rest =>
      .opened (.group (opening?_eq_group.2 opened) run closed) rest⟩
  | @binary o lroot ls l m rroot rs r n operator atLeast left above right first second =>
    obtain ⟨u, before, rfl, after⟩ := Window.reads_binary moved left.ne_nil right.ne_nil
    have tight : p < u.ahead.kind.power := tighter _ rfl
    obtain ⟨t, rfl, same, inside⟩ := first numeric before (by omega)
      (fun q member => Nat.lt_of_lt_of_le tight (atLeast q member)) atLeast
    have onto := (Window.Passes.step before.last_ne_eof).trans (.step (ne_eof_of_power_lt tight))
    obtain ⟨front, -, -, passed⟩ := id before
    have pos := right.pos
    have deeper : t.advance.advance.enter.depth = s.depth + 1 := by rw [← same]; rfl
    obtain ⟨t', rfl, same', inside'⟩ := second (s := t.advance.advance.enter) (p := t.ahead.kind.power)
      ((numeric.passes passed).passes onto) after (by omega) above
      (fun q member => Nat.le_trans (weak _ rfl) (Nat.le_of_lt (above q member)))
    have room : t.advance.advance.depth < Parse.maxDepth := by
      change t.depth < _
      omega
    have run := Run.close room inside' (weak _ rfl)
    refine ⟨t'.leave.note (.operator t.ahead.text t.ahead.kind.power), rfl,
      (depth_leave same').trans same, fun r rest => ?_⟩
    exact inside r (.step tight run rest)

theorem parse_ok_iff (numeric : s.window.Numeric) :
    (∃ t, parse p s = .ok e t ∧ t.window = v) ↔
      ∃ ts n, s.window.Reads ts v ∧ Spells p ts e n ∧ n + s.depth ≤ Parse.maxDepth ∧
        v.ahead.kind.power ≤ p := by
  constructor
  · rintro ⟨t, result, rfl⟩
    exact (run_iff.2 result).sound numeric
  · rintro ⟨ts, n, moved, ⟨root, tighter, derived⟩, bound, weak⟩
    have pos := derived.pos
    have deeper : s.enter.depth = s.depth + 1 := rfl
    obtain ⟨t, rfl, same, inside⟩ := derived.run (s := s.enter) numeric moved (by omega) tighter
      (fun q member => Nat.le_trans weak (Nat.le_of_lt (tighter q member)))
    exact ⟨t.leave, run_iff.1 (Run.close (by omega) inside weak), rfl⟩

/-! ### Expressions of a source -/

/-- The tokens from the `i`-th to the `j`-th one are an expression that nests at most `room` deep
and that the token behind it does not continue. -/
def SpelledAt (source : String) (p : Power) (room i j : Nat) (e : Expr) : Prop :=
  i ≤ j ∧ j < (Token.body source).length ∧
    (∃ n ≤ room, Spells p (((Token.body source).drop i).take (j + 1 - i)) e n) ∧
    (Token.nth source (j + 1)).kind.power ≤ p

theorem parse_at_iff {source : String} {i j : Nat} (standing : s.window.At source i) :
    (∃ t, parse p s = .ok e t ∧ t.window.At source j) ↔
      SpelledAt source p (Parse.maxDepth - s.depth) i j e := by
  constructor
  · rintro ⟨t, result, there⟩
    obtain ⟨ts, n, moved, spelled, bound, weak⟩ := (parse_ok_iff standing.numeric).1 ⟨t, result, rfl⟩
    obtain ⟨low, high, rfl⟩ := standing.reads_iff.1 ⟨_, moved, there⟩
    exact ⟨low, high, ⟨n, by omega, spelled⟩, by rw [← there.ahead]; exact weak⟩
  · rintro ⟨low, high, ⟨n, bound, spelled⟩, weak⟩
    obtain ⟨v, moved, there⟩ := standing.reads_iff.2 ⟨low, high, rfl⟩
    obtain ⟨root, -, derived⟩ := id spelled
    have pos := derived.pos
    rw [← there.ahead] at weak
    obtain ⟨t, result, rfl⟩ := (parse_ok_iff standing.numeric).2 ⟨_, n, moved, spelled, by omega, weak⟩
    exact ⟨t, result, there⟩

/-- Reading an expression succeeds exactly where the grammar has one, and the grammar has one at
most. -/
theorem parse_iff_spelled {source : String} {i : Nat} {s : State} (standing : s.window.At source i)
    (p : Power) :
    (∀ e j, (∃ t, parse p s = .ok e t ∧ t.window.At source j) ↔
      SpelledAt source p (Parse.maxDepth - s.depth) i j e) ∧
    (∀ e j e' j', SpelledAt source p (Parse.maxDepth - s.depth) i j e →
      SpelledAt source p (Parse.maxDepth - s.depth) i j' e' → e = e' ∧ j = j') := by
  refine ⟨fun e j => parse_at_iff standing, ?_⟩
  intro e j e' j' first second
  have before := first.2.1
  obtain ⟨t, result, there⟩ := (parse_at_iff standing).2 first
  obtain ⟨t', result', there'⟩ := (parse_at_iff standing).2 second
  obtain ⟨rfl, rfl⟩ := EStateM.Result.ok.inj (result.symm.trans result')
  exact ⟨rfl, there.index_unique there' before⟩

/-- Three levels are left for an expression that needs them all. -/
theorem parse_iff_spelled_group :
    ({ State.ofText "-(a + 1) == b" with depth := 253 } : State).window.At "-(a + 1) == b" 0 ∧
      (∀ e j, (∃ t, parse .lowest { State.ofText "-(a + 1) == b" with depth := 253 } = .ok e t ∧
        t.window.At "-(a + 1) == b" j) ↔ SpelledAt "-(a + 1) == b" .lowest 3 0 j e) :=
  ⟨Window.at_ofText _, (parse_iff_spelled (Window.at_ofText _) .lowest).1⟩

end LetLang.Expr
