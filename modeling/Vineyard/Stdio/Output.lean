import Vineyard.Stdio.Parts

/-!
# What the callback of `vcbprintf` is called with

The chunks of a format and its arguments do not depend on the callback.  A run hands them over in order
and stops with -1 behind the first one that is not taken; a run whose callback takes everything ends as
the scan of the format ends.
-/

namespace Vineyard

open Programs Programs.Prog

section Feeding

variable {σ : Type} {callback : PrintfCallback σ}

/-- Hands chunks to the callback until one is not taken. -/
def feed (callback : PrintfCallback σ) : σ → List (List Byte) → Bool × σ
  | ctx, [] => (true, ctx)
  | ctx, chunk :: chunks =>
    let (taken, ctx) := callback ctx chunk
    if taken ≠ chunk.length then (false, ctx) else feed callback ctx chunks

theorem feed_cons (ctx : σ) (chunk : List Byte) (chunks : List (List Byte)) :
    feed callback ctx (chunk :: chunks) =
      if (callback ctx chunk).1 ≠ chunk.length then (false, (callback ctx chunk).2)
      else feed callback (callback ctx chunk).2 chunks := rfl

theorem feed_append (chunks more : List (List Byte)) (ctx : σ) :
    feed callback ctx (chunks ++ more) =
      if (feed callback ctx chunks).1 then feed callback (feed callback ctx chunks).2 more
      else feed callback ctx chunks := by
  induction chunks generalizing ctx with
  | nil => rfl
  | cons chunk chunks ih =>
    rw [List.cons_append, feed_cons, feed_cons]
    by_cases taken : (callback ctx chunk).1 = chunk.length
    · rw [if_neg (not_not.mpr taken), if_neg (not_not.mpr taken)]
      exact ih _
    · rw [if_pos taken, if_pos taken]
      rfl

/-- The callback takes every chunk. -/
def Accepts (callback : PrintfCallback σ) : Prop :=
  ∀ ctx chars, (callback ctx chars).1 = chars.length

theorem Accepts.feed (accepts : Accepts callback) (chunks : List (List Byte)) (ctx : σ) :
    Vineyard.feed callback ctx chunks =
      (true, chunks.foldl (fun ctx chunk => (callback ctx chunk).2) ctx) := by
  induction chunks generalizing ctx with
  | nil => rfl
  | cons chunk chunks ih =>
    rw [feed_cons, if_neg (not_not.mpr (accepts ctx chunk)), ih, List.foldl_cons]

theorem accepts_collect : Accepts collect := fun _ _ => rfl

/-- The collecting callback keeps the chunks in a row. -/
theorem foldl_collect (chunks : List (List Byte)) : ∀ out : List Byte,
    chunks.foldl (fun ctx chunk => (collect ctx chunk).2) out = out ++ chunks.flatten := by
  induction chunks with
  | nil => simp
  | cons chunk chunks ih =>
    intro out
    rw [List.foldl_cons, ih, List.flatten_cons, collect, List.append_assoc]

/-! ## Programs that only hand over chunks -/

/-- How a program ends that hands over chunks and does nothing else. -/
def fedFrom (s : Printf σ) (fed : Bool × σ) : Except PrintfStop Unit × Printf σ :=
  (if fed.1 then .ok () else .error .rejected, { s with ctx := fed.2 })

def Hands (callback : PrintfCallback σ) (m : PrintfM σ Unit) (chunks : List (List Byte)) : Prop :=
  ∀ s, m.run s = fedFrom s (feed callback s.ctx chunks)

theorem Hands.nothing : Hands callback (pure ()) [] := fun _ => rfl

variable (callback) in
theorem Hands.emit (chunk : List Byte) : Hands callback (Vineyard.emit callback chunk) [chunk] := by
  intro s
  unfold Vineyard.emit fedFrom
  rw [run_bind_of_ok (run_get s), feed_cons]
  dsimp only
  rw [run_bind_of_ok (run_modify _ s)]
  by_cases taken : (callback s.ctx chunk).1 = chunk.length
  · rw [if_neg (not_not.mpr taken), if_neg (not_not.mpr taken)]
    rfl
  · rw [if_pos taken, if_pos taken]
    rfl

theorem Hands.bind {m n : PrintfM σ Unit} {chunks more : List (List Byte)}
    (first : Hands callback m chunks) (second : Hands callback n more) :
    Hands callback (m >>= fun _ => n) (chunks ++ more) := by
  intro s
  rw [run_bind, first s, feed_append]
  cases fed : feed callback s.ctx chunks with
  | mk taken ctx =>
    cases taken with
    | true => exact second { s with ctx := ctx }
    | false => rfl

theorem Hands.emitTimes (chunk : List Byte) (n : ℕ) :
    Hands callback (Vineyard.emitTimes callback chunk n) (List.replicate n chunk) := by
  induction n with
  | zero => exact .nothing
  | succ n ih =>
    rw [List.replicate_succ, ← List.singleton_append]
    exact (Hands.emit _ chunk).bind ih

/-- The chunks are counted when all of them were taken. -/
theorem Hands.count {m : PrintfM σ Unit} {chunks : List (List Byte)} (hands : Hands callback m chunks)
    (n : ℕ) (s : Printf σ) :
    (m >>= fun _ => Vineyard.count n).run s =
      if (feed callback s.ctx chunks).1 then
        (.ok (), { s with
          ctx := (feed callback s.ctx chunks).2
          written := (s.written + n) % 2 ^ 64 })
      else (.error .rejected, { s with ctx := (feed callback s.ctx chunks).2 }) := by
  rw [run_bind, hands s]
  cases fed : feed callback s.ctx chunks with
  | mk taken ctx => cases taken <;> rfl

/-! ## Parts -/

variable (callback) in
/-- The output of an integer between its stores and its count. -/
def handInteger (d : Directive) (specifier : Byte) (value : ℕ) (negative : Bool) :
    PrintfM σ Unit := do
  emitTimes callback [ascii ' '] (if d.flags.zero then 0 else padding d specifier value negative)
  emit callback (prefixChars d.flags specifier negative)
  emitTimes callback [ascii '0']
    (if d.flags.zero ∧ ¬ d.flags.minus then padding d specifier value negative else 0)
  emitTimes callback [ascii '0']
    (printedWidth d specifier value - bufLength (conversionBase specifier) 64 value)
  emit callback (integerDigits specifier value)
  emitTimes callback [ascii ' '] (if d.flags.minus then padding d specifier value negative else 0)

variable (callback) in
theorem Hands.integer (d : Directive) (specifier : Byte) (value : ℕ) (negative : Bool) :
    Hands callback (handInteger callback d specifier value negative)
      (Part.integer d specifier value negative).chunks :=
  (emitTimes _ _).bind ((emit _ _).bind ((emitTimes _ _).bind ((emitTimes _ _).bind
    ((emit _ _).bind (emitTimes _ _)))))

theorem store_run (x : ArrayStore) (s : Printf σ) :
    (store x : PrintfM σ Unit).run s =
      (if x.Inside then .ok () else .error .outOfBounds, { s with stores := x :: s.stores }) := by
  unfold store
  rw [run_bind_of_ok (run_modify _ s)]
  split_ifs <;> rfl

/-- The stores of a list end at the first one outside. -/
theorem forEach_store_run (xs : List ArrayStore) : ∀ s : Printf σ,
    (forEach xs store).run s =
      (if ∀ x ∈ xs, x.Inside then .ok () else .error .outOfBounds,
        { s with stores := storesMade xs ++ s.stores }) := by
  induction xs with
  | nil =>
    intro s
    simp [storesMade]
  | cons x xs ih =>
    intro s
    rw [forEach_cons, storesMade, run_bind, store_run]
    by_cases inside : x.Inside
    · rw [if_pos inside, if_pos inside]
      dsimp only
      rw [ih]
      simp [inside]
    · rw [if_neg inside, if_neg inside, if_neg fun all => inside (all x List.mem_cons_self)]
      rfl

theorem storesMade_subset (xs : List ArrayStore) : storesMade xs ⊆ xs := by
  induction xs with
  | nil => exact List.Subset.refl []
  | cons x xs ih =>
    rw [storesMade]
    split_ifs
    · exact List.append_subset.mpr ⟨fun y mem => List.mem_cons_of_mem x (ih mem), by simp⟩
    · simp

/-- All stores are inside exactly when all that are asked for are. -/
theorem storesMade_inside_iff (xs : List ArrayStore) :
    (∀ x ∈ storesMade xs, x.Inside) ↔ ∀ x ∈ xs, x.Inside := by
  induction xs with
  | nil => rfl
  | cons x xs ih =>
    rw [storesMade, List.forall_mem_cons]
    split_ifs with inside
    · rw [List.forall_mem_append, List.forall_mem_singleton, ih]
      exact and_comm
    · simp [inside]

variable (callback) in
/-- The stores of an integer come first. -/
theorem printInteger_run (d : Directive) (specifier : Byte) (value : ℕ) (negative : Bool)
    (s : Printf σ) :
    let part := Part.integer d specifier value negative
    (printInteger callback d specifier value negative).run s =
      if part.Fits then
        if (feed callback s.ctx part.chunks).1 then
          (.ok (), { s with
            ctx := (feed callback s.ctx part.chunks).2
            written := (s.written + part.counted) % 2 ^ 64
            stores := part.stores ++ s.stores })
        else (.error .rejected, { s with
          ctx := (feed callback s.ctx part.chunks).2
          stores := part.stores ++ s.stores })
      else (.error .outOfBounds, { s with stores := part.stores ++ s.stores }) := by
  intro part
  have counted := (Hands.integer callback d specifier value negative).count
    (bufLength (conversionBase specifier) 64 value) { s with stores := part.stores ++ s.stores }
  have stored := forEach_store_run part.targets s
  have first : printInteger callback d specifier value negative =
      (forEach part.targets store >>= fun _ =>
        handInteger callback d specifier value negative >>= fun _ =>
        count (bufLength (conversionBase specifier) 64 value)) := by
    unfold printInteger handInteger
    dsimp only
    rw [← bind_assoc, ← forEach_append]
    simp only [bind_assoc]
    rfl
  rw [first]
  by_cases fits : part.Fits
  · rw [if_pos fits]
    rw [if_pos (show ∀ x ∈ part.targets, x.Inside from fits)] at stored
    exact (run_bind_of_ok stored).trans counted
  · rw [if_neg fits]
    rw [if_neg (show ¬ ∀ x ∈ part.targets, x.Inside from fits)] at stored
    exact run_bind_of_error stored

/-- `written` behind a part. -/
def Part.add : Part → ℕ → ℕ
  | .percent, written => written
  | part, written => (written + part.counted) % 2 ^ 64

theorem Part.add_eq (part : Part) {written : ℕ} (small : written < 2 ^ 64) :
    part.add written = (written + part.counted) % 2 ^ 64 := by
  cases part with
  | percent => exact (Nat.mod_eq_of_lt small).symm
  | block | string | char | integer => rfl

variable (callback) in
/-- A part that fits hands over its chunks, and is counted when all of them are taken. -/
theorem Part.print_run (part : Part) (s : Printf σ) :
    (part.print callback).run s =
      if part.Fits then
        if (feed callback s.ctx part.chunks).1 then
          (.ok (), { s with
            ctx := (feed callback s.ctx part.chunks).2
            written := part.add s.written
            stores := part.stores ++ s.stores })
        else (.error .rejected, { s with
          ctx := (feed callback s.ctx part.chunks).2
          stores := part.stores ++ s.stores })
      else (.error .outOfBounds, { s with stores := part.stores ++ s.stores }) := by
  cases part with
  | block chars | string chars =>
    exact ((Hands.emit callback chars).count chars.length s).trans
      (if_pos fun x mem => by cases mem).symm
  | char c =>
    exact ((Hands.emit callback [c]).count 1 s).trans (if_pos fun x mem => by cases mem).symm
  | integer d specifier value negative => exact printInteger_run callback d specifier value negative s
  | percent =>
    refine Eq.trans ?_ (if_pos fun x mem => by cases mem).symm
    rw [Part.print, Hands.emit callback [ascii '%'] s, fedFrom]
    show _ = if (feed callback s.ctx [[ascii '%']]).1 then _ else _
    split_ifs <;> rfl

variable (callback) in
theorem Part.print_accepted (part : Part) (s : Printf σ) {ctx : σ} (small : s.written < 2 ^ 64)
    (fits : part.Fits) (fed : feed callback s.ctx part.chunks = (true, ctx)) :
    (part.print callback).run s = (.ok (), { s with
      ctx := ctx
      written := (s.written + part.counted) % 2 ^ 64
      stores := part.stores ++ s.stores }) := by
  rw [part.print_run callback s, if_pos fits, fed, if_pos rfl, part.add_eq small]

variable (callback) in
theorem Part.print_rejected (part : Part) (s : Printf σ) {ctx : σ} (fits : part.Fits)
    (fed : feed callback s.ctx part.chunks = (false, ctx)) :
    (part.print callback).run s = (.error .rejected, { s with
      ctx := ctx
      stores := part.stores ++ s.stores }) := by
  rw [part.print_run callback s, if_pos fits, fed]
  rfl

variable (callback) in
theorem Part.print_outOfBounds (part : Part) (s : Printf σ) (outside : ¬ part.Fits) :
    (part.print callback).run s =
      (.error .outOfBounds, { s with stores := part.stores ++ s.stores }) := by
  rw [part.print_run callback s, if_neg outside]

/-! ## The loop -/

/-- All stores of a scan, the last ones first. -/
def Scanned.stores (scanned : Scanned) : List ArrayStore := scanned.parts.reverse.flatMap Part.stores

/-- The scan with a part in front. -/
def Scanned.cons (part : Part) (scanned : Scanned) : Scanned :=
  { scanned with parts := part :: scanned.parts }

theorem Scanned.printed_cons {part : Part} (fits : part.Fits) (scanned : Scanned) :
    (scanned.cons part).printed = part :: scanned.printed := by
  simp [Scanned.cons, Scanned.printed, fits]

theorem Scanned.chunks_cons {part : Part} (fits : part.Fits) (scanned : Scanned) :
    (scanned.cons part).chunks = part.chunks ++ scanned.chunks := by
  rw [Scanned.chunks, Scanned.printed_cons fits]
  rfl

theorem Scanned.counted_cons {part : Part} (fits : part.Fits) (scanned : Scanned) :
    (scanned.cons part).counted = part.counted + scanned.counted := by
  rw [Scanned.counted, Scanned.printed_cons fits, List.map_cons, List.sum_cons]
  rfl

@[simp] theorem Scanned.stores_cons (part : Part) (scanned : Scanned) :
    (scanned.cons part).stores = scanned.stores ++ part.stores := by
  simp [Scanned.cons, Scanned.stores]

/-- The scan that ends with a part that does not fit. -/
def Scanned.stopped (part : Part) (args : List VaArg) (bad : Bool) : Scanned :=
  ⟨[part], .error .outOfBounds, args, bad⟩

theorem Scanned.printed_stopped {part : Part} (outside : ¬ part.Fits) (args : List VaArg)
    (bad : Bool) :
    (Scanned.stopped part args bad).printed = [] := by
  simp [Scanned.stopped, Scanned.printed, outside]

theorem scanLoop_succ_ok {steps : ℕ} {bad : Bool} {c : Byte} {format : List Byte}
    {args args' : List VaArg} {found : Found} (fits : found.part.Fits)
    (step : (scanStep bad (c :: format)).run args = (.ok found, args')) :
    scanLoop (steps + 1) bad (c :: format) args =
      (scanLoop steps found.badConversion found.rest args').cons found.part := by
  rw [scanLoop, step]
  exact if_pos fits

theorem scanLoop_succ_stopped {steps : ℕ} {bad : Bool} {c : Byte} {format : List Byte}
    {args args' : List VaArg} {found : Found} (outside : ¬ found.part.Fits)
    (step : (scanStep bad (c :: format)).run args = (.ok found, args')) :
    scanLoop (steps + 1) bad (c :: format) args = .stopped found.part args' found.badConversion := by
  rw [scanLoop, step]
  exact if_neg outside

theorem scanLoop_succ_error {steps : ℕ} {bad : Bool} {c : Byte} {format : List Byte}
    {args args' : List VaArg} {stop : PrintfStop}
    (step : (scanStep bad (c :: format)).run args = (.error stop, args')) :
    scanLoop (steps + 1) bad (c :: format) args = ⟨[], .error stop, args', bad⟩ := by
  rw [scanLoop, step]

/-- The state in which a found part is printed. -/
def Printf.found (s : Printf σ) (args : List VaArg) (found : Found) : Printf σ :=
  { s with args := args, badConversion := found.badConversion }

variable (callback) in
theorem vcbprintfStep_found {c : Byte} {format : List Byte} {s : Printf σ} {args : List VaArg}
    {found : Found} (step : (scanStep s.badConversion (c :: format)).run s.args = (.ok found, args)) :
    (vcbprintfStep callback (c :: format)).run s =
      (found.part.print callback >>= fun _ => pure found.rest).run (s.found args found) := by
  have fetched : ((scanStep s.badConversion (c :: format)).on argsLeft).run s =
      (.ok found, { s with args := args }) := by
    rw [run_on, show argsLeft.view s = s.args from rfl, step]
    rfl
  rw [vcbprintfStep_run, run_bind_of_ok fetched]
  rfl

theorem vcbprintfStep_stops {c : Byte} {format : List Byte} {s : Printf σ} {args : List VaArg}
    {stop : PrintfStop}
    (step : (scanStep s.badConversion (c :: format)).run s.args = (.error stop, args)) :
    (vcbprintfStep callback (c :: format)).run s = (.error stop, { s with args := args }) := by
  have fetched : ((scanStep s.badConversion (c :: format)).on argsLeft).run s =
      (.error stop, { s with args := args }) := by
    rw [run_on, show argsLeft.view s = s.args from rfl, step]
    rfl
  rw [vcbprintfStep_run, run_bind_of_error fetched]

theorem vcbprintfLoop_cons (steps : ℕ) (c : Byte) (format : List Byte) :
    vcbprintfLoop callback (steps + 1) (c :: format) =
      (vcbprintfStep callback (c :: format) >>= vcbprintfLoop callback steps) := rfl

/-- The state behind a scan whose chunks were all taken. -/
def Printf.after (s : Printf σ) (ctx : σ) (scanned : Scanned) : Printf σ where
  ctx := ctx
  args := scanned.args
  written := (s.written + scanned.counted) % 2 ^ 64
  badConversion := scanned.badConversion
  stores := scanned.stores ++ s.stores

theorem Printf.after_nothing {s : Printf σ} (small : s.written < 2 ^ 64)
    (result : Except PrintfStop Unit) (args : List VaArg) :
    s.after s.ctx ⟨[], result, args, s.badConversion⟩ = { s with args := args } := by
  have same : (s.written + 0) % 2 ^ 64 = s.written := Nat.mod_eq_of_lt small
  show Printf.mk s.ctx args ((s.written + 0) % 2 ^ 64) s.badConversion s.stores = _
  rw [same]

theorem Printf.after_stopped {s : Printf σ} (small : s.written < 2 ^ 64) {found : Found}
    (outside : ¬ found.part.Fits) (args : List VaArg) :
    s.after s.ctx (.stopped found.part args found.badConversion) =
      { s.found args found with stores := found.part.stores ++ s.stores } := by
  have same : (s.written + 0) % 2 ^ 64 = s.written := Nat.mod_eq_of_lt small
  unfold Printf.after
  rw [Scanned.counted, Scanned.printed_stopped outside, List.map_nil, List.sum_nil, same]
  simp [Scanned.stopped, Scanned.stores, Printf.found]

/-- **A run whose chunks are all taken ends as the scan does.** -/
theorem vcbprintfLoop_accepted (steps : ℕ) :
    ∀ (format : List Byte) (s : Printf σ) (ctx : σ), s.written < 2 ^ 64 →
      feed callback s.ctx (scanLoop steps s.badConversion format s.args).chunks = (true, ctx) →
      (vcbprintfLoop callback steps format).run s =
        ((scanLoop steps s.badConversion format s.args).result,
          s.after ctx (scanLoop steps s.badConversion format s.args)) := by
  induction steps with
  | zero =>
    intro format s ctx small fed
    cases format <;> cases fed <;> exact (congrArg _ (s.after_nothing small _ _)).symm
  | succ steps ih =>
    intro format s ctx small fed
    cases format with
    | nil =>
      cases fed
      exact (congrArg _ (s.after_nothing small _ _)).symm
    | cons c format =>
      cases step : (scanStep s.badConversion (c :: format)).run s.args with
      | mk result args =>
        cases result with
        | error stop =>
          rw [scanLoop_succ_error step] at fed ⊢
          cases fed
          rw [vcbprintfLoop_cons, run_bind_of_error (vcbprintfStep_stops step),
            s.after_nothing small]
        | ok found =>
          by_cases fits : found.part.Fits
          swap
          · rw [scanLoop_succ_stopped fits step] at fed ⊢
            rw [Scanned.chunks, Scanned.printed_stopped fits] at fed
            cases fed
            have printed := found.part.print_outOfBounds callback (s.found args found) fits
            rw [vcbprintfLoop_cons, run_bind_of_error ((vcbprintfStep_found _ step).trans
              (run_bind_of_error printed))]
            exact congrArg _ (s.after_stopped small fits args).symm
          rw [scanLoop_succ_ok fits step] at fed ⊢
          rw [Scanned.chunks_cons fits, feed_append] at fed
          cases first : feed callback s.ctx found.part.chunks with
          | mk taken ctx' =>
            rw [first] at fed
            cases taken with
            | false => cases fed
            | true =>
              have printed := found.part.print_accepted callback (s.found args found) small fits first
              rw [vcbprintfLoop_cons, run_bind, vcbprintfStep_found _ step, run_bind_of_ok printed]
              dsimp only [run_pure]
              refine (ih found.rest _ ctx (Nat.mod_lt _ (Nat.two_pow_pos 64)) ?_).trans ?_
              · exact fed
              refine congrArg _ ?_
              unfold Printf.after
              rw [Scanned.counted_cons fits, Scanned.stores_cons, ← Nat.add_assoc, List.append_assoc,
                Nat.mod_add_mod]
              rfl

/-- **A run with a chunk that is not taken stops there.**  Its stores are among those of the scan. -/
theorem vcbprintfLoop_rejected (steps : ℕ) :
    ∀ (format : List Byte) (s : Printf σ) (ctx : σ), s.written < 2 ^ 64 →
      feed callback s.ctx (scanLoop steps s.badConversion format s.args).chunks = (false, ctx) →
      ∃ t, (vcbprintfLoop callback steps format).run s = (.error .rejected, t) ∧ t.ctx = ctx ∧
        t.stores ⊆ (scanLoop steps s.badConversion format s.args).stores ++ s.stores := by
  induction steps with
  | zero =>
    intro format s ctx small fed
    cases format <;> cases fed
  | succ steps ih =>
    intro format s ctx small fed
    cases format with
    | nil => cases fed
    | cons c format =>
      cases step : (scanStep s.badConversion (c :: format)).run s.args with
      | mk result args =>
        cases result with
        | error stop =>
          rw [scanLoop_succ_error step] at fed
          cases fed
        | ok found =>
          by_cases fits : found.part.Fits
          swap
          · rw [scanLoop_succ_stopped fits step, Scanned.chunks, Scanned.printed_stopped fits] at fed
            cases fed
          rw [scanLoop_succ_ok fits step] at fed ⊢
          rw [Scanned.chunks_cons fits, feed_append] at fed
          rw [vcbprintfLoop_cons, run_bind, vcbprintfStep_found _ step, Scanned.stores_cons,
            List.append_assoc]
          cases first : feed callback s.ctx found.part.chunks with
          | mk taken ctx' =>
            rw [first] at fed
            cases taken with
            | false =>
              cases fed
              have printed := found.part.print_rejected callback (s.found args found) fits first
              rw [run_bind_of_error printed]
              exact ⟨_, rfl, rfl, List.subset_append_right _ _⟩
            | true =>
              have printed := found.part.print_accepted callback (s.found args found) small fits first
              rw [run_bind_of_ok printed]
              refine ih found.rest _ ctx (Nat.mod_lt _ (Nat.two_pow_pos 64)) ?_
              exact fed

end Feeding

/-! ## What a step of the scan finds -/

/-- Text, an escaped `%`, text from a `%` on, or a conversion that is known. -/
theorem scanStep_cases {bad : Bool} {format : List Byte} {args args' : List VaArg} {found : Found}
    (step : (scanStep bad format).run args = (.ok found, args')) :
    (peek format ≠ ascii '%' ∧ found = scanBlock bad format ∧ args' = args) ∨
    (peek format = ascii '%' ∧ peek format.tail = ascii '%' ∧ found = scanBlock bad format.tail ∧
      args' = args) ∨
    (peek format = ascii '%' ∧ peek format.tail ≠ ascii '%' ∧ found = scanBlock true format) ∨
    (bad = false ∧ ∃ d specifier fetch part left rest, fetchPart d specifier = some fetch ∧
      fetch.run left = (.ok part, args') ∧ found = ⟨part, rest, false⟩) := by
  unfold scanStep at step
  split_ifs at step with text escape isBad
  · cases step
    exact .inl ⟨text, rfl, rfl⟩
  · cases step
    exact .inr (.inl ⟨not_not.mp text, escape, rfl, rfl⟩)
  · cases step
    exact .inr (.inr (.inl ⟨not_not.mp text, escape, rfl⟩))
  unfold scanConversion at step
  dsimp only at step
  rw [run_bind] at step
  cases outcome : (fetchWidth (readFlags {} format.tail).2).run args with
  | mk result left =>
    rw [outcome] at step
    cases result with
    | error stop => cases step
    | ok width =>
      dsimp only at step
      generalize known : fetchPart _ _ = conversion at step
      cases conversion with
      | none =>
        cases step
        exact .inr (.inr (.inl ⟨not_not.mp text, escape, rfl⟩))
      | some fetch =>
        rw [finishScan, run_bind] at step
        cases run : fetch.run left with
        | mk result left' =>
          rw [run] at step
          cases result with
          | error stop => cases step
          | ok part =>
            cases step
            have good : bad = false := by simpa using isBad
            exact .inr (.inr (.inr ⟨good, _, _, fetch, part, left, _, known, run, rfl⟩))

/-! ## How a scan ends -/

section Ends

variable {α β : Type}

/-- The program can only fail for want of an argument. -/
def Misses (m : FetchM α) : Prop :=
  ∀ args stop args', m.run args = (.error stop, args') → stop = .argument

theorem Misses.pure (a : α) : Misses (Pure.pure a) := by
  intro args stop args' run
  cases run

theorem Misses.fail : Misses (Prog.fail .argument : FetchM α) := by
  intro args stop args' run
  cases run
  rfl

theorem Misses.bind {m : FetchM α} {f : α → FetchM β} (first : Misses m) (rest : ∀ a, Misses (f a)) :
    Misses (m >>= f) := by
  intro args stop args' run
  cases outcome : m.run args with
  | mk result left =>
    cases result with
    | ok a => exact rest a left stop args' ((run_bind_of_ok outcome).symm.trans run)
    | error e =>
      have failed := (run_bind_of_error (f := f) outcome).symm.trans run
      cases failed
      exact first _ _ _ outcome

theorem Misses.arg : Misses fetchArg := by
  intro args stop args' run
  cases args with
  | nil =>
    cases run
    rfl
  | cons a rest => cases run

theorem Misses.int : Misses fetchInt := Misses.arg.bind fun a => by
  cases a with
  | int v => exact Misses.pure v
  | long | pointer | string => exact Misses.fail

theorem Misses.long : Misses fetchLong := Misses.arg.bind fun a => by
  cases a with
  | long v => exact Misses.pure v
  | int | pointer | string => exact Misses.fail

theorem Misses.pointer : Misses fetchPointer := Misses.arg.bind fun a => by
  cases a with
  | pointer v => exact Misses.pure v
  | int | long | string => exact Misses.fail

theorem Misses.string : Misses fetchString := Misses.arg.bind fun a => by
  cases a with
  | string chars => exact Misses.pure chars
  | int | long | pointer => exact Misses.fail

theorem Misses.width (format : List Byte) : Misses (fetchWidth format) := by
  unfold fetchWidth
  dsimp only
  split_ifs
  · exact Misses.int.bind fun _ => Misses.pure _
  · exact Misses.pure _

theorem Misses.signed {length : PrintfLength} {arg : FetchM (BitVec 64)}
    (found : fetchSigned length = some arg) : Misses arg := by
  cases length <;> cases found <;>
    first | exact Misses.int.bind fun _ => Misses.pure _ | exact Misses.long

theorem Misses.unsigned {length : PrintfLength} {arg : FetchM (BitVec 64)}
    (found : fetchUnsigned length = some arg) : Misses arg := by
  cases length <;> cases found <;>
    first | exact Misses.int.bind fun _ => Misses.pure _ | exact Misses.long

theorem Misses.part {d : Directive} {specifier : Byte} {fetch : FetchM Part}
    (found : fetchPart d specifier = some fetch) : Misses fetch := by
  unfold fetchPart at found
  split_ifs at found
  · cases found
    exact Misses.pure _
  · cases found
    exact Misses.string.bind fun _ => Misses.pure _
  · cases found
    exact Misses.int.bind fun _ => Misses.pure _
  · cases found
    exact Misses.pointer.bind fun _ => Misses.pure _
  · obtain ⟨arg, known, rfl⟩ := Option.map_eq_some_iff.mp found
    exact (Misses.signed known).bind fun _ => Misses.pure _
  · obtain ⟨arg, known, rfl⟩ := Option.map_eq_some_iff.mp found
    exact (Misses.unsigned known).bind fun _ => Misses.pure _

theorem Misses.step (badConversion : Bool) (format : List Byte) :
    Misses (scanStep badConversion format) := by
  unfold scanStep
  split_ifs
  · exact Misses.pure _
  · exact Misses.pure _
  · exact Misses.pure _
  refine (Misses.width _).bind fun width => ?_
  unfold finishScan
  dsimp only
  split
  · rename_i fetch found
    exact (Misses.part found).bind fun _ => Misses.pure _
  · exact Misses.pure _

theorem accepts_placeholder : Accepts (callbackPlaceholder : PrintfCallback Unit) := fun _ _ => rfl

/-- A step takes at least one byte of the format. -/
theorem scanStep_shorter {bad : Bool} {c : Byte} {format : List Byte} {args args' : List VaArg}
    {found : Found} (fits : found.part.Fits)
    (step : (scanStep bad (c :: format)).run args = (.ok found, args')) :
    found.rest.length ≤ format.length := by
  have leaves : Leaves (vcbprintfStep (collect : PrintfCallback (List Byte)) (c :: format))
      format.length := vcbprintfStep_leaves c format
  have ends := leaves.ends ⟨[], args, 0, bad, []⟩ trivial
  have printed := found.part.print_accepted collect (Printf.found ⟨[], args, 0, bad, []⟩ args' found)
    (Nat.two_pow_pos 64) fits (accepts_collect.feed _ _)
  rw [vcbprintfStep_found _ step, run_bind_of_ok printed] at ends
  exact ends

/-- The scan ends at the end of the format, for want of an argument, or at a part that does not fit. -/
theorem scanLoop_result (steps : ℕ) :
    ∀ bad (format : List Byte) args, format.length ≤ steps →
      (scanLoop steps bad format args).result = .ok () ∨
        (scanLoop steps bad format args).result = .error .argument ∨
        (scanLoop steps bad format args).result = .error .outOfBounds := by
  induction steps with
  | zero =>
    intro bad format args short
    cases format with
    | nil => exact .inl rfl
    | cons c format => cases short
  | succ steps ih =>
    intro bad format args short
    cases format with
    | nil => exact .inl rfl
    | cons c format =>
      cases step : (scanStep bad (c :: format)).run args with
      | mk result args' =>
        cases result with
        | error stop =>
          rw [scanLoop_succ_error step]
          exact .inr (.inl (congrArg Except.error (Misses.step _ _ _ _ _ step)))
        | ok found =>
          by_cases fits : found.part.Fits
          · rw [scanLoop_succ_ok fits step]
            have shorter := scanStep_shorter fits step
            rw [List.length_cons] at short
            exact ih _ _ _ (by omega)
          · rw [scanLoop_succ_stopped fits step]
            exact .inr (.inr rfl)

theorem scan_result (format : List Byte) (args : List VaArg) :
    (scan format args).result = .ok () ∨ (scan format args).result = .error .argument ∨
      (scan format args).result = .error .outOfBounds :=
  scanLoop_result _ _ _ _ (Nat.le_refl _)

/-- A scan stops out of bounds exactly when it finds a part that does not fit. -/
theorem scanLoop_outOfBounds_iff (steps : ℕ) :
    ∀ bad (format : List Byte) args,
      (scanLoop steps bad format args).result = .error .outOfBounds ↔
        ∃ part ∈ (scanLoop steps bad format args).parts, ¬ part.Fits := by
  induction steps with
  | zero =>
    intro bad format args
    cases format <;> simp [scanLoop]
  | succ steps ih =>
    intro bad format args
    cases format with
    | nil => simp [scanLoop]
    | cons c format =>
      cases step : (scanStep bad (c :: format)).run args with
      | mk result args' =>
        cases result with
        | error stop =>
          rw [scanLoop_succ_error step, Misses.step _ _ _ _ _ step]
          simp
        | ok found =>
          by_cases fits : found.part.Fits
          · rw [scanLoop_succ_ok fits step]
            show (scanLoop _ _ _ _).result = _ ↔ _
            rw [ih]
            simp [Scanned.cons, fits]
          · rw [scanLoop_succ_stopped fits step]
            simp [Scanned.stopped, fits]

/-- Every part is printed unless the scan stops out of bounds. -/
theorem scan_printed {format : List Byte} {args : List VaArg}
    (inside : (scan format args).result ≠ .error .outOfBounds) :
    (scan format args).printed = (scan format args).parts := by
  have outside := (scanLoop_outOfBounds_iff format.length false format args).not.mp inside
  refine List.filter_eq_self.mpr fun part mem => decide_eq_true ?_
  by_contra missing
  exact outside ⟨part, mem, missing⟩

end Ends

/-! ## The whole formatter -/

section Whole

variable {σ : Type} {callback : PrintfCallback σ} {format : List Byte} {args : List VaArg}
  {ctx ctx' : σ}

theorem vcbprintfAll_accepted (fed : feed callback ctx (scan format args).chunks = (true, ctx')) :
    (vcbprintfAll callback format).run (.start ctx args) =
      ((scan format args).result, (Printf.start ctx args).after ctx' (scan format args)) :=
  vcbprintfLoop_accepted format.length format (.start ctx args) ctx' (Nat.two_pow_pos 64) fed

theorem vcbprintfAll_rejected (fed : feed callback ctx (scan format args).chunks = (false, ctx')) :
    ∃ t, (vcbprintfAll callback format).run (.start ctx args) = (.error .rejected, t) ∧ t.ctx = ctx' ∧
      t.stores ⊆ (scan format args).stores := by
  obtain ⟨t, run, left, stores⟩ := vcbprintfLoop_rejected format.length format (.start ctx args) ctx'
    (Nat.two_pow_pos 64) fed
  exact ⟨t, run, left, by simpa [Printf.start, scan] using stores⟩

/-- The value of `vcbprintf` when every chunk is taken. -/
def Scanned.returns (scanned : Scanned) : ℤ :=
  if intMax < scanned.counted % 2 ^ 64 then -1 else (scanned.counted % 2 ^ 64 : ℕ)

theorem vcbprintf_accepted (fed : feed callback ctx (scan format args).chunks = (true, ctx')) :
    vcbprintf ctx (some callback) (some format) args =
      match (scan format args).result with
      | .ok _ => .ok ((scan format args).returns, ctx')
      | .error stop => .error stop := by
  unfold vcbprintf
  dsimp only [Option.getD_some]
  rw [vcbprintfAll_accepted fed]
  rcases scan_result format args with ends | ends | ends
  · rw [ends]
    dsimp only [Printf.after, Printf.start, Scanned.returns]
    rw [Nat.zero_add]
  · rw [ends]
  · rw [ends]

theorem vcbprintf_rejected (fed : feed callback ctx (scan format args).chunks = (false, ctx')) :
    vcbprintf ctx (some callback) (some format) args = .ok (-1, ctx') := by
  obtain ⟨t, run, rfl, -⟩ := vcbprintfAll_rejected fed
  unfold vcbprintf
  dsimp only [Option.getD_some]
  rw [run]

/-- What is delivered are the chunks of the scan. -/
theorem scan_of_delivers {out : List Byte} {left : List VaArg}
    (given : delivers format args = .ok (out, left)) :
    (scan format args).result = .ok () ∧ (scan format args).chunks.flatten = out := by
  unfold delivers at given
  rw [vcbprintfAll_accepted (accepts_collect.feed _ _), foldl_collect] at given
  obtain ends | ends | ends := scan_result format args
  · rw [ends] at given
    cases given
    exact ⟨ends, rfl⟩
  · rw [ends] at given
    cases given
  · rw [ends] at given
    cases given

end Whole

end Vineyard
