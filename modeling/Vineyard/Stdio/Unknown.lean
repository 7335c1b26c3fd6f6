import Vineyard.Stdio.Pointers

/-!
# Unknown conversions

Behind the first conversion that is not known the rest of the format is text.  No argument is taken any
more, and only `%%` is not delivered as it stands.
-/

namespace Vineyard

open Programs Programs.Prog Strings

variable {σ : Type} {callback : PrintfCallback σ}

/-- The text with a single `%` for each `%%`. -/
def unescape : List Byte → List Byte
  | [] => []
  | [c] => [c]
  | c :: d :: format =>
    if c = ascii '%' ∧ d = ascii '%' then ascii '%' :: unescape format else c :: unescape
      (d :: format)

example : unescape ("%q%%".toList.map ascii) = "%q%".toList.map ascii := by decide

/-- The loop comes to an iteration with this rest of the format. -/
inductive ComesTo (callback : PrintfCallback σ) (ctx : σ) (format : List Byte) (args : List VaArg) :
    List Byte → Printf σ → Prop
  | start : ComesTo callback ctx format args format (.start ctx args)
  | step {c : Byte} {rest rest' : List Byte} {s s' : Printf σ}
      (before : ComesTo callback ctx format args (c :: rest) s)
      (iteration : (vcbprintfStep callback (c :: rest)).run s = (.ok rest', s')) :
      ComesTo callback ctx format args rest' s'

/-! ## Text -/

theorem unescape_cons {c : Byte} {format : List Byte}
    (plain : ¬ (c = ascii '%' ∧ peek format = ascii '%')) :
    unescape (c :: format) = c :: unescape format := by
  cases format with
  | nil => rfl
  | cons d format => exact if_neg plain

/-- The text before the next `%` stands for itself. -/
theorem unescape_text (format : List Byte) :
    format.takeWhile (· ≠ ascii '%') ++ unescape (format.dropWhile (· ≠ ascii '%')) =
      unescape format := by
  induction format with
  | nil => rfl
  | cons c format ih =>
    by_cases percent : c = ascii '%'
    · rw [List.takeWhile_cons_of_neg (by simp [percent]),
        List.dropWhile_cons_of_neg (by simp [percent])]
      rfl
    · rw [List.takeWhile_cons_of_pos (by simp [percent]),
        List.dropWhile_cons_of_pos (by simp [percent]),
        unescape_cons fun both => percent both.1, List.cons_append, ih]

theorem drop_takeWhile {α : Type} (p : α → Bool) (l : List α) :
    l.drop (l.takeWhile p).length = l.dropWhile p := by
  induction l with
  | nil => rfl
  | cons a l ih =>
    rw [List.takeWhile_cons, List.dropWhile_cons]
    split_ifs
    · exact ih
    · rfl

theorem take_takeWhile {α : Type} (p : α → Bool) (l : List α) :
    l.take (l.takeWhile p).length = l.takeWhile p :=
  (List.prefix_iff_eq_take.mp (List.takeWhile_prefix p)).symm

/-- A block is a byte and the text before the next `%`. -/
theorem normalPrint_block (c : Byte) (format : List Byte) (s : Printf σ) :
    let chunk := c :: format.takeWhile (· ≠ ascii '%')
    (normalPrint callback (c :: format)).run s =
      if (feed callback s.ctx [chunk]).1 then
        (.ok (format.dropWhile (· ≠ ascii '%')), { s with
          ctx := (feed callback s.ctx [chunk]).2
          written := (s.written + chunk.length) % 2 ^ 64 })
      else (.error .rejected, { s with ctx := (feed callback s.ctx [chunk]).2 }) := by
  intro chunk
  have printed := (Hands.emit callback chunk).count chunk.length s
  have block : 1 + (format.takeWhile (· ≠ ascii '%')).length = chunk.length := Nat.add_comm _ _
  have taken : (c :: format).take chunk.length = chunk := congrArg (c :: ·) (take_takeWhile _ format)
  have left : (c :: format).drop chunk.length = format.dropWhile (· ≠ ascii '%') :=
    drop_takeWhile _ format
  unfold normalPrint
  dsimp only
  rw [List.tail_cons, block, taken, left, ← bind_assoc, run_bind, printed]
  split_ifs <;> rfl

/-! ## Behind an unknown conversion -/

variable (callback) in
/-- An iteration with `bad_conversion` set delivers text. -/
theorem vcbprintfStep_bad (c : Byte) (format : List Byte) : ∃ chunk rest : List Byte,
    rest.length ≤ format.length ∧ chunk ++ unescape rest = unescape (c :: format) ∧
      ∀ s : Printf σ, s.badConversion = true → (vcbprintfStep callback (c :: format)).run s =
        if (feed callback s.ctx [chunk]).1 then
          (.ok rest, { s with
            ctx := (feed callback s.ctx [chunk]).2
            written := (s.written + chunk.length) % 2 ^ 64 })
        else (.error .rejected, { s with ctx := (feed callback s.ctx [chunk]).2 }) := by
  by_cases escape : c = ascii '%' ∧ peek format = ascii '%'
  · cases format with
    | nil => cases escape.2
    | cons d format =>
      obtain ⟨rfl, percent⟩ := escape
      obtain rfl : d = ascii '%' := percent
      refine ⟨ascii '%' :: format.takeWhile (· ≠ ascii '%'), format.dropWhile (· ≠ ascii '%'), ?_, ?_,
        fun s _ => ?_⟩
      · exact Nat.le_succ_of_le (List.dropWhile_suffix _).length_le
      · rw [unescape, if_pos ⟨rfl, rfl⟩, List.cons_append, unescape_text]
      · exact normalPrint_block (ascii '%') format s
  · refine ⟨c :: format.takeWhile (· ≠ ascii '%'), format.dropWhile (· ≠ ascii '%'), ?_, ?_,
      fun s bad => ?_⟩
    · exact (List.dropWhile_suffix _).length_le
    · rw [unescape_cons escape, List.cons_append, unescape_text]
    · refine Eq.trans ?_ (normalPrint_block c format s)
      unfold vcbprintfStep
      rw [peek_cons, List.tail_cons]
      by_cases percent : c = ascii '%'
      · rw [if_neg (not_not.mpr percent), if_neg fun next => escape ⟨percent, next⟩,
          run_bind_of_ok (run_get s), if_pos bad]
      · rw [if_pos percent]

variable (callback) in
/-- From there on the rest of the format is delivered as text, in some chunks, and no argument is
taken. -/
theorem vcbprintfAll_bad (n : ℕ) : ∀ format : List Byte, format.length ≤ n →
    ∃ chunks : List (List Byte), chunks.flatten = unescape format ∧
      ∀ s : Printf σ, s.badConversion = true → ∃ t, (vcbprintfAll callback format).run s =
          (if (feed callback s.ctx chunks).1 then .ok () else .error .rejected, t) ∧
        t.ctx = (feed callback s.ctx chunks).2 ∧ t.args = s.args := by
  induction n with
  | zero =>
    intro format short
    obtain rfl := List.length_eq_zero_iff.mp (Nat.le_zero.mp short)
    exact ⟨[], rfl, fun s _ => ⟨s, rfl, rfl, rfl⟩⟩
  | succ n ih =>
    intro format short
    cases format with
    | nil => exact ⟨[], rfl, fun s _ => ⟨s, rfl, rfl, rfl⟩⟩
    | cons c format =>
      obtain ⟨chunk, rest, shorter, text, step⟩ := vcbprintfStep_bad callback c format
      rw [List.length_cons] at short
      obtain ⟨chunks, whole, later⟩ := ih rest (by omega)
      refine ⟨chunk :: chunks, by rw [List.flatten_cons, whole, text], fun s bad => ?_⟩
      have both : feed callback s.ctx (chunk :: chunks) = _ := feed_append [chunk] chunks s.ctx
      rw [vcbprintfAll_cons, run_bind, step s bad, both]
      by_cases taken : (feed callback s.ctx [chunk]).1 = true
      · rw [if_pos taken, if_pos taken]
        exact later _ bad
      · rw [if_neg taken, if_neg taken, if_neg taken]
        exact ⟨_, rfl, rfl, rfl⟩

/-! ## The first unknown conversion -/

variable (callback) in
theorem Part.print_keeps (part : Part) (s : Printf σ) :
    ((part.print callback).run s).2.args = s.args ∧
      ((part.print callback).run s).2.badConversion = s.badConversion := by
  rw [part.print_run callback s]
  split_ifs <;> exact ⟨rfl, rfl⟩

/-- A step of the scan that sets `bad_conversion` finds the text from a `%` on. -/
theorem scanStep_recognises {c : Byte} {format : List Byte} {args args' : List VaArg} {found : Found}
    (step : (scanStep false (c :: format)).run args = (.ok found, args'))
    (recognised : found.badConversion = true) :
    scanStep true (c :: format) = pure found := by
  obtain ⟨-, rfl, -⟩ | ⟨-, -, rfl, -⟩ | ⟨percent, conversion, rfl⟩ |
    ⟨-, d, specifier, fetch, part, left, rest, -, -, rfl⟩ := scanStep_cases step
  · cases recognised
  · cases recognised
  · unfold scanStep
    rw [if_neg (not_not.mpr percent), if_neg conversion, if_pos rfl]
  · cases recognised

/-- An iteration that sets `bad_conversion` does what it does when it is set before. -/
theorem vcbprintfStep_recognises {c : Byte} {format : List Byte} {s s' : Printf σ}
    {result : Except PrintfStop (List Byte)}
    (step : (vcbprintfStep callback (c :: format)).run s = (result, s'))
    (good : s.badConversion = false) (recognised : s'.badConversion = true) :
    (vcbprintfStep callback (c :: format)).run s =
      (vcbprintfStep callback (c :: format)).run
        { s with args := s'.args, badConversion := true } := by
  cases scanned : (scanStep s.badConversion (c :: format)).run s.args with
  | mk outcome args =>
    cases outcome with
    | error stop =>
      rw [vcbprintfStep_stops scanned] at step
      cases step
      rw [good] at recognised
      cases recognised
    | ok found =>
      have printed := vcbprintfStep_found callback scanned
      have keeps := found.part.print_keeps callback (s.found args found)
      have after : ((found.part.print callback).run (s.found args found)).2 = s' := by
        rw [printed, run_bind] at step
        cases ends : (found.part.print callback).run (s.found args found) with
        | mk printResult t =>
          rw [ends] at step
          cases printResult <;> cases step <;> rfl
      rw [after] at keeps
      have bad : found.badConversion = true := keeps.2.symm.trans recognised
      rw [good] at scanned
      have again := scanStep_recognises scanned bad
      have scannedAgain : (scanStep true (c :: format)).run args = (.ok found, args) := by
        rw [again]
        rfl
      rw [printed, keeps.1]
      exact (vcbprintfStep_found callback (s := { s with args := args, badConversion := true })
        scannedAgain).symm

/-- What is left of the run from an iteration on. -/
theorem ComesTo.run_eq {ctx : σ} {text rest : List Byte} {args : List VaArg} {s : Printf σ}
    (comes : ComesTo callback ctx text args rest s) :
    (vcbprintfAll callback text).run (.start ctx args) = (vcbprintfAll callback rest).run s := by
  induction comes with
  | start => rfl
  | step before iteration ih => rw [ih, vcbprintfAll_cons, run_bind_of_ok iteration]

/-- **`vcbprintf` is safe on every format.**  On a terminated string the loop ends and nothing behind
the terminator is read; and from the first unknown conversion on the rest of the format is delivered
as text, as far as the callback takes the chunks, and no argument is taken any more. -/
theorem vcbprintf_safe (callback : PrintfCallback σ) (ctx : σ) (text : List Byte) (args : List VaArg)
    (noNul : (0 : Byte) ∉ text) :
    (∀ (behind : ℕ → Byte) (steps : ℕ), text.length < steps → ∃ reads,
      (vcbprintfAt callback (stringAt text behind) steps).run ⟨.start ctx args, []⟩ =
        (((vcbprintfAll callback text).run (.start ctx args)).1,
          ⟨((vcbprintfAll callback text).run (.start ctx args)).2, reads⟩) ∧
      ((vcbprintfAll callback text).run (.start ctx args)).1 ≠ .error .endless ∧
      ∀ i ∈ reads, i ≤ text.length) ∧
    ∀ (c : Byte) (rest : List Byte) (s s' : Printf σ) (result : Except PrintfStop (List Byte)),
      ComesTo callback ctx text args (c :: rest) s →
      (vcbprintfStep callback (c :: rest)).run s = (result, s') →
      s.badConversion = false → s'.badConversion = true →
      ∃ chunks t, chunks.flatten = unescape (c :: rest) ∧
        (vcbprintfAll callback text).run (.start ctx args) =
          (if (feed callback s.ctx chunks).1 then .ok () else .error .rejected, t) ∧
        t.ctx = (feed callback s.ctx chunks).2 ∧ t.args = s'.args := by
  constructor
  · intro behind steps enough
    obtain ⟨reads, run, inside⟩ := vcbprintfAt_run callback noNul behind ctx args enough
    exact ⟨reads, run, vcbprintfAll_ends callback text args ctx, inside⟩
  · intro c rest s s' result comes step good recognised
    obtain ⟨chunks, whole, later⟩ := vcbprintfAll_bad callback _ (c :: rest) (Nat.le_refl _)
    obtain ⟨t, run, delivered, left⟩ := later { s with args := s'.args, badConversion := true } rfl
    refine ⟨chunks, t, whole, ?_, delivered, left⟩
    have same := vcbprintfStep_recognises step good recognised
    rw [vcbprintfAll_cons, run_bind] at run
    rw [comes.run_eq, vcbprintfAll_cons, run_bind, same]
    exact run

/-- `%q%%`, which is delivered as `%q%` -/
theorem vcbprintf_safe_unknown :
    (∃ reads, (vcbprintfAt collect (stringAt ("%q%%".toList.map ascii) fun _ => 0x25) 5).run
          ⟨.start [] [.int 7], []⟩ =
        (((vcbprintfAll collect ("%q%%".toList.map ascii)).run (.start [] [.int 7])).1,
          ⟨((vcbprintfAll collect ("%q%%".toList.map ascii)).run (.start [] [.int 7])).2, reads⟩) ∧
      ((vcbprintfAll collect ("%q%%".toList.map ascii)).run (.start [] [.int 7])).1 ≠
        .error .endless ∧
      ∀ i ∈ reads, i ≤ ("%q%%".toList.map ascii).length) ∧
    ∃ chunks t, chunks.flatten = unescape ("%q%%".toList.map ascii) ∧
      (vcbprintfAll collect ("%q%%".toList.map ascii)).run (.start [] [.int 7]) =
        (if (feed collect [] chunks).1 then .ok () else .error .rejected, t) ∧
      t.ctx = (feed collect [] chunks).2 ∧ t.args = [.int 7] :=
  have safe := vcbprintf_safe collect [] ("%q%%".toList.map ascii) [.int 7] (by decide)
  ⟨safe.1 (fun _ => 0x25) 5 (by decide),
    safe.2 (ascii '%') ("q%%".toList.map ascii) (.start [] [.int 7])
      ⟨"%q".toList.map ascii, [.int 7], 2, true, []⟩ (.ok ("%%".toList.map ascii)) .start rfl rfl rfl⟩

end Vineyard
