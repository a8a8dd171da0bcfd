import LetLang.Proofs.Token.Scanner

/-!
# Scanners and their clones

Scanners of one source that are asked and cloned in any order always answer. Each is told by how many tokens it
has given (`run?_standing`), and what the others are asked does not show in its answers (`run?_alone`). So no
position of any of them ever leaves the source or goes through a character (`run_fits`).
-/

namespace LetLang.Token.Scanners

open Scanner (Query Answer standing)
open Text (byteLength)

/-! ### One scanner among others -/

def Command.queryTo? (i : Nat) : Command → Option Query
  | .ask j q => if j = i then some q else none
  | .clone _ => none

def Reply.answer? : Reply → Option Answer
  | .answer a => some a
  | .cloned _ | .missing => none

def queriesTo (i : Nat) (cs : List Command) : List Query := cs.filterMap (·.queryTo? i)

/-- What scanner `i` answers to the commands. -/
def answersOf (i : Nat) (cs : List Command) (replies : List Reply) : List Answer :=
  (cs.zip replies).filterMap fun (c, reply) => (c.queryTo? i).bind fun _ => reply.answer?

variable {w w' u : Scanners} {s : Scanner} {c : Command} {cs : List Command} {reply : Reply} {replies : List Reply}
  {i : Nat} {q : Query}

/-- A command that asks scanner `i` moves it as if it were alone; any other command leaves it as it is. -/
theorem step?_at (stepped : step? w c = some (reply, w')) (found : w[i]? = some s) :
    (∃ q a t, c.queryTo? i = some q ∧ s.ask? q = some (a, t) ∧ reply = .answer a ∧ w'[i]? = some t) ∨
      c.queryTo? i = none ∧ w'[i]? = some s := by
  have inside := (List.getElem?_eq_some_iff.1 found).1
  cases c with
  | ask j q =>
    unfold step? at stepped
    dsimp only at stepped
    by_cases same : j = i
    · subst same
      rw [found] at stepped
      obtain ⟨⟨a, t⟩, asked, moved⟩ := Option.map_eq_some_iff.1 stepped
      obtain ⟨rfl, rfl⟩ := Prod.mk.inj moved
      exact .inl ⟨q, a, t, if_pos rfl, asked, rfl, List.getElem?_set_self inside⟩
    · refine .inr ⟨if_neg same, ?_⟩
      split at stepped
      · obtain ⟨-, rfl⟩ := Prod.mk.inj (Option.some.inj stepped)
        exact found
      · obtain ⟨⟨a, t⟩, -, moved⟩ := Option.map_eq_some_iff.1 stepped
        obtain ⟨-, rfl⟩ := Prod.mk.inj moved
        rwa [List.getElem?_set_ne same]
  | clone j =>
    refine .inr ⟨rfl, ?_⟩
    unfold step? at stepped
    dsimp only at stepped
    split at stepped
    · obtain ⟨-, rfl⟩ := Prod.mk.inj (Option.some.inj stepped)
      exact found
    · obtain ⟨-, rfl⟩ := Prod.mk.inj (Option.some.inj stepped)
      rwa [List.getElem?_append_left inside]

theorem run?_cons : run? w (c :: cs) = some (replies, u) ↔
    ∃ reply w' rest, step? w c = some (reply, w') ∧ run? w' cs = some (rest, u) ∧ replies = reply :: rest := by
  constructor
  · intro ran
    obtain ⟨⟨reply, w'⟩, stepped, ran⟩ := Option.bind_eq_some_iff.1 ran
    obtain ⟨⟨rest, u⟩, further, same⟩ := Option.bind_eq_some_iff.1 ran
    cases same
    exact ⟨reply, w', rest, stepped, further, rfl⟩
  · rintro ⟨reply, w', rest, stepped, further, rfl⟩
    simp [run?, stepped, further]

/-- What other scanners are asked does not show in the answers of scanner `i`. -/
theorem run?_alone (ran : run? w cs = some (replies, u)) (found : w[i]? = some s) :
    ∃ t, u[i]? = some t ∧ s.asks? (queriesTo i cs) = some (answersOf i cs replies, t) := by
  induction cs generalizing w s replies with
  | nil =>
    obtain ⟨rfl, rfl⟩ := Prod.mk.inj (Option.some.inj ran)
    exact ⟨s, found, rfl⟩
  | cons c cs ih =>
    obtain ⟨reply, w', rest, stepped, further, rfl⟩ := run?_cons.1 ran
    rcases step?_at stepped found with ⟨q, a, s', query, asked, rfl, found'⟩ | ⟨query, found'⟩
    · obtain ⟨t, last, answered⟩ := ih further found'
      refine ⟨t, last, ?_⟩
      simp only [queriesTo, answersOf] at answered
      simp [queriesTo, answersOf, query, Reply.answer?, Scanner.asks?, asked, answered]
    · obtain ⟨t, last, answered⟩ := ih further found'
      refine ⟨t, last, ?_⟩
      simp only [queriesTo, answersOf] at answered
      simp [queriesTo, answersOf, query, answered]

/-! ### Scanners of one source -/

/-- How many tokens each scanner has given after a command. -/
def Command.counts (ks : List Nat) : Command → List Nat
  | .ask i q =>
    match ks[i]? with
    | none => ks
    | some k => ks.set i (k + q.takes)
  | .clone i => ks ++ ks[i]?.toList

/-- The reply to a command, where it is known how many tokens each scanner has given. -/
def Command.replyFrom (source : String) (ks : List Nat) : Command → Reply
  | .ask i q =>
    match ks[i]? with
    | none => .missing
    | some k => .answer (q.answer source k)
  | .clone i => if i < ks.length then .cloned ks.length else .missing

/-- The replies to commands, told by the counts of the tokens that the scanners have given. -/
def told (source : String) : List Nat → List Command → List Reply
  | _, [] => []
  | ks, c :: cs => c.replyFrom source ks :: told source (c.counts ks) cs

theorem step?_standing (source : String) (ks : List Nat) (c : Command) :
    step? (ks.map (standing source)) c = some (c.replyFrom source ks, (c.counts ks).map (standing source)) := by
  cases c with
  | ask i q =>
    unfold step? Command.replyFrom Command.counts
    dsimp only
    rw [List.getElem?_map]
    cases ks[i]? with
    | none => rfl
    | some k => simp only [Option.map_some, Scanner.ask?_standing, List.map_set]
  | clone i =>
    unfold step? Command.replyFrom Command.counts
    dsimp only
    rw [List.getElem?_map]
    cases found : ks[i]? with
    | none =>
      have outside := List.getElem?_eq_none_iff.1 found
      simp [Nat.not_lt.2 outside]
    | some k =>
      have inside := (List.getElem?_eq_some_iff.1 found).1
      simp [inside]

/-- Each scanner gives the tokens of the source in order, however many others there are. -/
theorem run?_standing (source : String) (ks : List Nat) (cs : List Command) :
    run? (ks.map (standing source)) cs =
      some (told source ks cs, (cs.foldl (fun ks c => c.counts ks) ks).map (standing source)) := by
  induction cs generalizing ks with
  | nil => rfl
  | cons c cs ih => exact run?_cons.2 ⟨_, _, _, step?_standing source ks c, ih (c.counts ks), rfl⟩

/-- A clone goes on where its original stood by then. -/
example : ((Scanner.ofText? "é=").bind fun s => run? [s] [.ask 0 .token, .clone 0, .ask 0 .token, .ask 0 .atEnd,
    .ask 1 .item, .ask 1 .item]).map Prod.fst =
    some [.answer (.token ⟨.illegal, "é", ⟨0, 2⟩⟩), .cloned 1, .answer (.token ⟨.assign, "=", ⟨2, 3⟩⟩),
      .answer (.atEnd true), .answer (.item (some ⟨.assign, "=", ⟨2, 3⟩⟩)), .answer (.item none)] := by
  decide +kernel

/-- Scanners of a source may be asked and cloned in any order: no cut ever fails, and the replies are told by the
tokens of the source. The positions and the character of each scanner fit together, and every reading of it
succeeds. It answers among the others what it answers alone, and behind the end token nothing else. -/
theorem run_fits (source : String) (cs : List Command) :
    ∃ first w, Scanner.ofText? source = some first ∧ run? [first] cs = some (told source [0] cs, w) ∧
      ∀ i s, w[i]? = some s → s.Fits source.toList ∧ s.Reads ∧
        (∀ ds, ∃ replies u t, run? w ds = some (replies, u) ∧ u[i]? = some t ∧
          s.asks? (queriesTo i ds) = some (answersOf i ds replies, t)) ∧
        ∀ t s', s.next? = some (t, s') → t.kind = .eof →
          t = ⟨.eof, "", ⟨byteLength source.toList, byteLength source.toList⟩⟩ ∧
            ∀ qs, s'.asks? qs = some (qs.map (Query.last (byteLength source.toList)), s') := by
  refine ⟨standing source 0, _, Scanner.ofText?_eq source, run?_standing source [0] cs, fun i s found => ?_⟩
  obtain ⟨k, -, rfl⟩ := List.exists_of_mem_map (List.mem_of_getElem? found)
  have inside := Cursor.in_after source k
  refine ⟨Scanner.fits_scanner inside, Scanner.reads_scanner inside, fun ds => ?_, fun t s' read last => ?_⟩
  · obtain ⟨t, later, answered⟩ := run?_alone (run?_standing source _ ds) found
    exact ⟨_, _, t, run?_standing source _ ds, later, answered⟩
  · rw [standing, Cursor.scanner_next? inside] at read
    obtain ⟨rfl, rfl⟩ := Prod.mk.inj (Option.some.inj read)
    exact ⟨Cursor.eof_eq inside last, Scanner.asks?_of_eof inside last⟩

end LetLang.Token.Scanners
