import Vineyard.Stdio.Output

/-!
# A callback that fails

The calls that `vcbprintf` makes are recorded with what the callback answered.  A call that is not
taken is the last one, the value is -1, and the chunks up to it are the first chunks of every run
whose callback never fails.
-/

namespace Vineyard

open Programs Programs.Prog

variable {σ τ : Type}

/-- A callback with a record of its calls and answers. -/
def traced (callback : PrintfCallback σ) : PrintfCallback (σ × List (List Byte × ℕ)) :=
  fun ctx chars =>
    let (taken, after) := callback ctx.1 chars
    (taken, after, ctx.2 ++ [(chars, taken)])

/-- The calls of a run, in order. -/
def callsMade (callback : PrintfCallback σ) (ctx : σ) (format : List Byte) (args : List VaArg) :
    List (List Byte × ℕ) :=
  ((vcbprintfAll (traced callback) format).run (.start (ctx, []) args)).2.ctx.2

/-- The calls in which chunks are handed over. -/
def handed (callback : PrintfCallback σ) : σ → List (List Byte) → List (List Byte × ℕ)
  | _, [] => []
  | ctx, chunk :: chunks =>
    (chunk, (callback ctx chunk).1) ::
      if (callback ctx chunk).1 ≠ chunk.length then []
      else handed callback (callback ctx chunk).2 chunks

/-- The record does not change what the callback does. -/
theorem feed_traced (callback : PrintfCallback σ) (chunks : List (List Byte)) :
    ∀ (ctx : σ) calls, feed (traced callback) (ctx, calls) chunks =
      ((feed callback ctx chunks).1, (feed callback ctx chunks).2,
        calls ++ handed callback ctx chunks) := by
  induction chunks with
  | nil =>
    intro ctx calls
    rw [handed, List.append_nil]
    rfl
  | cons chunk chunks ih =>
    intro ctx calls
    rw [feed_cons, feed_cons, handed]
    show (if (callback ctx chunk).1 ≠ chunk.length then _ else
      feed (traced callback)
        ((callback ctx chunk).2, calls ++ [(chunk, (callback ctx chunk).1)]) chunks) = _
    by_cases taken : (callback ctx chunk).1 = chunk.length
    · rw [if_neg (not_not.mpr taken), if_neg (not_not.mpr taken), if_neg (not_not.mpr taken), ih,
        List.append_assoc]
      rfl
    · rw [if_pos taken, if_pos taken, if_pos taken]
      rfl

theorem callsMade_eq (callback : PrintfCallback σ) (ctx : σ) (format : List Byte)
    (args : List VaArg) :
    callsMade callback ctx format args = handed callback ctx (scan format args).chunks := by
  have fed := feed_traced callback (scan format args).chunks ctx []
  unfold callsMade
  cases taken : (feed callback ctx (scan format args).chunks).1 with
  | true =>
    rw [taken] at fed
    rw [vcbprintfAll_accepted fed]
    rfl
  | false =>
    rw [taken] at fed
    obtain ⟨t, run, left, -⟩ := vcbprintfAll_rejected fed
    rw [run]
    dsimp only
    rw [left]
    rfl

theorem handed_prefix (callback : PrintfCallback σ) (chunks : List (List Byte)) :
    ∀ ctx, (handed callback ctx chunks).map Prod.fst <+: chunks := by
  induction chunks with
  | nil => exact fun _ => List.nil_prefix
  | cons chunk chunks ih =>
    intro ctx
    rw [handed, List.map_cons, List.cons_prefix_cons]
    refine ⟨rfl, ?_⟩
    split_ifs
    · exact List.nil_prefix
    · exact ih _

theorem Accepts.handed {callback : PrintfCallback σ} (accepts : Accepts callback)
    (chunks : List (List Byte)) :
    ∀ ctx, (Vineyard.handed callback ctx chunks).map Prod.fst = chunks := by
  induction chunks with
  | nil => exact fun _ => rfl
  | cons chunk chunks ih =>
    intro ctx
    rw [Vineyard.handed, List.map_cons, if_neg (not_not.mpr (accepts ctx chunk)), ih]

/-- A call that is not taken is the last one. -/
theorem handed_rejected {callback : PrintfCallback σ} {call : List Byte × ℕ}
    (rejected : call.2 ≠ call.1.length) (chunks : List (List Byte)) :
    ∀ ctx, call ∈ handed callback ctx chunks →
      (feed callback ctx chunks).1 = false ∧ ∃ before,
        handed callback ctx chunks = before ++ [call] ∧ ∀ c ∈ before, c.2 = c.1.length := by
  induction chunks with
  | nil =>
    intro ctx mem
    cases mem
  | cons chunk chunks ih =>
    intro ctx mem
    rw [feed_cons]
    rw [handed] at mem ⊢
    by_cases taken : (callback ctx chunk).1 = chunk.length
    · rw [if_neg (not_not.mpr taken)] at mem ⊢
      rw [if_neg (not_not.mpr taken)]
      have later : call ∈ handed callback (callback ctx chunk).2 chunks := by
        rcases List.mem_cons.mp mem with rfl | later
        · exact absurd taken rejected
        · exact later
      obtain ⟨stopped, before, calls, good⟩ := ih _ later
      refine ⟨stopped, (chunk, (callback ctx chunk).1) :: before, by rw [calls]; rfl, ?_⟩
      intro c mem
      rcases List.mem_cons.mp mem with rfl | mem
      · exact taken
      · exact good c mem
    · rw [if_pos taken] at mem ⊢
      rw [if_pos taken]
      obtain rfl := List.mem_singleton.mp mem
      exact ⟨rfl, [], rfl, fun c mem => by cases mem⟩

/-- **A failing callback stops the formatter at once.**  A call with another answer than the length of
its chunk is the last one and the only such one, the value is -1, and up to it the chunks are those of
every run whose callback never fails. -/
theorem vcbprintf_stops (callback : PrintfCallback σ) (ctx : σ) (format : List Byte)
    (args : List VaArg) (call : List Byte × ℕ) (made : call ∈ callsMade callback ctx format args)
    (rejected : call.2 ≠ call.1.length) :
    (∃ ctx', vcbprintf ctx (some callback) (some format) args = .ok (-1, ctx')) ∧
      ∃ before, callsMade callback ctx format args = before ++ [call] ∧
        (∀ c ∈ before, c.2 = c.1.length) ∧
        ∀ {τ : Type} (other : PrintfCallback τ) (start : τ), Accepts other →
          before.map Prod.fst ++ [call.1] <+: (callsMade other start format args).map Prod.fst := by
  rw [callsMade_eq] at made
  obtain ⟨stopped, before, calls, good⟩ := handed_rejected rejected _ _ made
  refine ⟨⟨(feed callback ctx (scan format args).chunks).2, vcbprintf_rejected ?_⟩, before,
    ?_, good, ?_⟩
  · rw [← stopped]
  · rw [callsMade_eq, calls]
  · intro τ other start accepts
    have first := handed_prefix callback (scan format args).chunks ctx
    rw [calls, List.map_append] at first
    rw [callsMade_eq, accepts.handed]
    exact first

/-- Takes as many chunks as the context says, and nothing of the next one. -/
def takesSome : PrintfCallback ℕ := fun n chars => (if n = 0 then 0 else chars.length, n - 1)

theorem vcbprintf_stops_second :
    (∃ ctx', vcbprintf 1 (some takesSome) (some ("ab%cd".toList.map ascii)) [.int 0x63] =
      .ok (-1, ctx')) ∧
      ∃ before, callsMade takesSome 1 ("ab%cd".toList.map ascii) [.int 0x63] =
          before ++ [([ascii 'c'], 0)] ∧
        (∀ c ∈ before, c.2 = c.1.length) ∧
        ∀ {τ : Type} (other : PrintfCallback τ) (start : τ), Accepts other →
          before.map Prod.fst ++ [[ascii 'c']] <+:
            (callsMade other start ("ab%cd".toList.map ascii) [.int 0x63]).map Prod.fst :=
  vcbprintf_stops takesSome 1 ("ab%cd".toList.map ascii) [.int 0x63] ([ascii 'c'], 0)
    (by decide +kernel) (by decide)

end Vineyard
