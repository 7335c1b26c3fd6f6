import Vineyard.Stdio.Calls
import Vineyard.Stdio.Items
import Vineyard.Stdio.Puts

/-!
# The console

The callback of `printf`, `vprintf` and `panic` counts the characters that it hands to `terminal_putc`
against a length in bytes.  Behind a chunk with longer characters it goes on in what lies there in
memory, until a terminator or until the count is used up.  A character without an entry in the font
ends in a panic, and nothing is passed any more.
-/

namespace Vineyard

open Strings

/-- The terminal, what each call of `terminal_putc` took, the number of chunks so far, and whether
a call did not return. -/
structure Console where
  terminal : Terminal
  passed : List (List UInt8)
  chunks : ℕ
  panicked : Bool

def Console.start (t : Terminal) : Console := ⟨t, [], 0, false⟩

/-- The loop of the callback. -/
def consoleLoop (fb : Framebuffer) (font : Font) : ℕ → (ℕ → UInt8) → Console → Console
  | 0, _, s => s
  | length + 1, string, s =>
    if string 0 = 0 then s
    else
      match terminalPutc fb font string s.terminal with
      | (some n, t) =>
        consoleLoop fb font length (advance string n)
          { s with terminal := t, passed := s.passed ++ [chunkBytes string n] }
      | (none, t) => { s with terminal := t, panicked := true }

/-- `behind` is the memory behind each chunk.  After a panic nothing is done with what the
formatter still hands over. -/
def consoleCallback (fb : Framebuffer) (font : Font) (behind : ℕ → ℕ → UInt8) :
    PrintfCallback Console := fun s string =>
  if s.panicked then (string.length, s)
  else (string.length, consoleLoop fb font string.length (chunkAt string (behind s.chunks))
    { s with chunks := s.chunks + 1 })

/-- `callback` of `printf.c` -/
def printfCallback : Framebuffer → Font → (ℕ → ℕ → UInt8) → PrintfCallback Console := consoleCallback

/-- `callback` of `vprintf.c` -/
def vprintfCallback : Framebuffer → Font → (ℕ → ℕ → UInt8) → PrintfCallback Console := consoleCallback

/-- `callback` of `panic.c` -/
def panicCallback : Framebuffer → Font → (ℕ → ℕ → UInt8) → PrintfCallback Console := consoleCallback

/-- The three callbacks on the console. -/
def consoleCallbacks (fb : Framebuffer) (font : Font) (behind : ℕ → ℕ → UInt8) :
    List (PrintfCallback Console) :=
  [printfCallback fb font behind, vprintfCallback fb font behind, panicCallback fb font behind]

/-- The bytes of a text. -/
def encode (text : List Char) : List UInt8 := text.flatMap String.utf8EncodeChar

/-- The characters of a text, each as its bytes. -/
def characters (text : List Char) : List (List UInt8) := text.map String.utf8EncodeChar

/-- Only characters of one byte. -/
def OneByte (text : List Char) : Prop := ∀ c ∈ text, c.val < 0x80

instance (text : List Char) : Decidable (OneByte text) := inferInstanceAs (Decidable (∀ c ∈ text, _))

/-! ## Texts -/

theorem utf8EncodeChar_length_pos (c : Char) : 0 < (String.utf8EncodeChar c).length :=
  List.length_pos_of_ne_nil String.utf8EncodeChar_ne_nil

theorem encode_cons (c : Char) (text : List Char) :
    encode (c :: text) = String.utf8EncodeChar c ++ encode text := List.flatMap_cons

theorem characters_append (text more : List Char) :
    characters (text ++ more) = characters text ++ characters more := List.map_append

theorem oneByte_iff (c : Char) : (String.utf8EncodeChar c).length = 1 ↔ c.val < 0x80 := by
  rw [String.length_utf8EncodeChar, Char.utf8Size_eq_one_iff, UInt32.le_iff_toNat_le,
    UInt32.lt_iff_toNat_lt]
  exact Nat.lt_succ_iff.symm

/-- A text has as many bytes as characters when all of them have one byte. -/
theorem encode_length (text : List Char) :
    text.length ≤ (encode text).length ∧ ((encode text).length = text.length ↔ OneByte text) := by
  induction text with
  | nil => exact ⟨Nat.le_refl _, fun _ _ mem => (by cases mem), fun _ => rfl⟩
  | cons c text ih =>
    have pos := utf8EncodeChar_length_pos c
    have one := oneByte_iff c
    rw [encode_cons, List.length_append, List.length_cons]
    refine ⟨by omega, ?_⟩
    rw [OneByte, List.forall_mem_cons, ← one, ← OneByte, ← ih.2]
    omega

theorem leadLength_char (c : Char) (behind : ℕ → UInt8) :
    leadLength (chunkAt (String.utf8EncodeChar c) behind 0) = (String.utf8EncodeChar c).length := by
  rw [← utf8Decode_length, utf8Decode_char]

theorem chunkAt_char_ne_zero {c : Char} (text : c ≠ Char.ofNat 0) (behind : ℕ → UInt8) :
    chunkAt (String.utf8EncodeChar c) behind 0 ≠ 0 := by
  intro zero
  have decoded := utf8Decode_char c behind
  rw [utf8Decode_one (by rw [zero]; decide), zero] at decoded
  have code : c.val.toNat = 0 := (congrArg Prod.snd decoded).symm
  exact text (Char.ext (UInt32.toNat_inj.mp code))

/-! ## The loop -/

section Loop

variable {fb : Framebuffer} {font : Font}

/-- The console behind a call of `terminal_putc` that returns. -/
def Console.put (s : Console) (fb : Framebuffer) (font : Font) (string : ℕ → UInt8)
    (n : ℕ) : Console :=
  { s with
    terminal := (terminalPutc fb font string s.terminal).2
    passed := s.passed ++ [chunkBytes string n] }

theorem consoleLoop_put {length n : ℕ} {string : ℕ → UInt8} {s : Console} (more : string 0 ≠ 0)
    (put : (terminalPutc fb font string s.terminal).1 = some n) :
    consoleLoop fb font (length + 1) string s =
      consoleLoop fb font length (advance string n) (s.put fb font string n) := by
  rw [consoleLoop, if_neg more, Console.put]
  generalize terminalPutc fb font string s.terminal = outcome at put ⊢
  obtain ⟨returned, after⟩ := outcome
  cases put
  rfl

theorem consoleLoop_panic {length : ℕ} {string : ℕ → UInt8} {s : Console} (more : string 0 ≠ 0)
    (panics : (terminalPutc fb font string s.terminal).1 = none) :
    consoleLoop fb font (length + 1) string s =
      { s with terminal := (terminalPutc fb font string s.terminal).2, panicked := true } := by
  rw [consoleLoop, if_neg more]
  generalize terminalPutc fb font string s.terminal = outcome at panics ⊢
  obtain ⟨returned, after⟩ := outcome
  cases panics
  rfl

/-- The bytes of a character at a pointer. -/
theorem terminalPutc_char (font : Font) (ready : fb.ready = true) (c : Char) (behind : ℕ → UInt8)
    (t : Terminal) :
    (terminalPutc fb font (chunkAt (String.utf8EncodeChar c) behind) t).1 =
      if InFontIndex c.val.toNat then some (String.utf8EncodeChar c).length else none := by
  rw [terminalPutc_returns, if_pos ready, leadLength_char, utf8Decode_char]

/-- All characters have an entry in the font. -/
def Drawable (text : List Char) : Prop := ∀ c ∈ text, InFontIndex c.val.toNat

instance (text : List Char) : Decidable (Drawable text) := inferInstanceAs (Decidable (∀ c ∈ text, _))

variable (font) in
/-- The characters of a text are passed, and then what lies behind it. -/
theorem consoleLoop_text (ready : fb.ready = true) (extra : ℕ) (behind : ℕ → UInt8)
    (text : List Char) : Char.ofNat 0 ∉ text → Drawable text → ∀ s : Console, ∃ t,
      consoleLoop fb font (text.length + extra) (chunkAt (encode text) behind) s =
        consoleLoop fb font extra behind
          { s with terminal := t, passed := s.passed ++ characters text } := by
  induction text with
  | nil =>
    intro _ _ s
    refine ⟨s.terminal, ?_⟩
    rw [characters, List.map_nil, List.append_nil, List.length_nil, Nat.zero_add]
    rfl
  | cons c text ih =>
    intro proper drawable s
    rw [List.mem_cons, not_or] at proper
    rw [Drawable, List.forall_mem_cons] at drawable
    have here : chunkAt (encode (c :: text)) behind =
        chunkAt (String.utf8EncodeChar c) (chunkAt (encode text) behind) := by
      rw [encode_cons, chunkAt_append]
    have step := terminalPutc_char font ready c (chunkAt (encode text) behind) s.terminal
    rw [if_pos drawable.1] at step
    have more := chunkAt_char_ne_zero (fun same => proper.1 same.symm) (chunkAt (encode text) behind)
    obtain ⟨t, later⟩ := ih proper.2 drawable.2 (s.put fb font
      (chunkAt (String.utf8EncodeChar c) (chunkAt (encode text) behind))
        (String.utf8EncodeChar c).length)
    refine ⟨t, ?_⟩
    rw [List.length_cons, Nat.add_right_comm, here, consoleLoop_put more step, advance_chunkAt, later,
      Console.put, chunkBytes_chunkAt]
    dsimp only
    rw [List.append_assoc]
    rfl

variable (font) in
/-- A character without an entry in the font is a panic. -/
theorem consoleLoop_undrawable (ready : fb.ready = true) (extra : ℕ) (behind : ℕ → UInt8)
    (text : List Char) : Char.ofNat 0 ∉ text → ¬ Drawable text → ∀ s : Console,
      (consoleLoop fb font (text.length + extra) (chunkAt (encode text) behind) s).panicked =
        true := by
  induction text with
  | nil => exact fun _ undrawable _ => absurd (fun c mem => by cases mem) undrawable
  | cons c text ih =>
    intro proper undrawable s
    rw [List.mem_cons, not_or] at proper
    rw [Drawable, List.forall_mem_cons] at undrawable
    have step := terminalPutc_char font ready c (chunkAt (encode text) behind) s.terminal
    have more := chunkAt_char_ne_zero (fun same => proper.1 same.symm) (chunkAt (encode text) behind)
    rw [List.length_cons, Nat.add_right_comm, encode_cons, chunkAt_append]
    by_cases entry : InFontIndex c.val.toNat
    · rw [if_pos entry] at step
      rw [consoleLoop_put more step, advance_chunkAt]
      exact ih proper.2 (fun later => undrawable ⟨entry, later⟩) _
    · rw [if_neg entry] at step
      rw [consoleLoop_panic more step]

variable (fb font) in
/-- The loop passes nothing more only when it is at its end, or panics. -/
theorem consoleLoop_passed (length : ℕ) : ∀ (string : ℕ → UInt8) (s : Console), ∃ more,
    (consoleLoop fb font length string s).passed = s.passed ++ more ∧
      (consoleLoop fb font length string s).chunks = s.chunks ∧
      (more = [] ∧ (consoleLoop fb font length string s).panicked = false ↔
        (length = 0 ∨ string 0 = 0) ∧ s.panicked = false) := by
  induction length with
  | zero =>
    intro string s
    exact ⟨[], (List.append_nil _).symm, rfl, fun end_ => ⟨.inl rfl, end_.2⟩, fun end_ =>
      ⟨rfl, end_.2⟩⟩
  | succ length ih =>
    intro string s
    by_cases nul : string 0 = 0
    · rw [consoleLoop, if_pos nul]
      exact ⟨[], (List.append_nil _).symm, rfl, fun end_ => ⟨.inr nul, end_.2⟩,
        fun end_ => ⟨rfl, end_.2⟩⟩
    cases put : (terminalPutc fb font string s.terminal).1 with
    | none =>
      rw [consoleLoop_panic nul put]
      exact ⟨[], (List.append_nil _).symm, rfl, fun end_ => (by cases end_.2),
        fun end_ => absurd end_.1 (by simp [nul])⟩
    | some n =>
      obtain ⟨more, passed, chunks, -⟩ := ih (advance string n) (s.put fb font string n)
      rw [consoleLoop_put nul put]
      refine ⟨chunkBytes string n :: more, ?_, chunks, ?_⟩
      · rw [passed, Console.put, List.append_assoc]
        rfl
      · exact ⟨fun end_ => (by cases end_.1), fun end_ => absurd end_.1 (by simp [nul])⟩

/-- What is printed of a text with this behind it is the text. -/
def PrintedRight (behind : ℕ → ℕ → UInt8) (p : List Char × ℕ) : Prop :=
  Drawable p.1 ∧ (OneByte p.1 ∨ behind p.2 0 = 0)

variable (font) in
/-- What the callback passes on for the bytes of a text. -/
theorem consoleCallback_text (ready : fb.ready = true) (behind : ℕ → ℕ → UInt8) (text : List Char)
    (proper : Char.ofNat 0 ∉ text) (s : Console) (running : s.panicked = false) :
    (consoleCallback fb font behind s (encode text)).2.chunks = s.chunks + 1 ∧
      ((consoleCallback fb font behind s (encode text)).2.panicked = false → ∃ more,
        (consoleCallback fb font behind s (encode text)).2.passed =
          s.passed ++ (characters text ++ more) ∧
        (more = [] ↔ PrintedRight behind (text, s.chunks))) ∧
      (PrintedRight behind (text, s.chunks) →
        (consoleCallback fb font behind s (encode text)).2.panicked = false) := by
  obtain ⟨enough, same⟩ := encode_length text
  obtain ⟨extra, whole⟩ := Nat.exists_eq_add_of_le enough
  have called : (consoleCallback fb font behind s (encode text)).2 =
      consoleLoop fb font (text.length + extra) (chunkAt (encode text) (behind s.chunks))
        { s with chunks := s.chunks + 1 } := by
    unfold consoleCallback
    rw [if_neg (by simp [running]), whole]
  rw [called]
  by_cases drawable : Drawable text
  · obtain ⟨t, loop⟩ := consoleLoop_text font ready extra (behind s.chunks) text proper drawable
      { s with chunks := s.chunks + 1 }
    obtain ⟨more, passed, chunks, nothing⟩ := consoleLoop_passed fb font extra (behind s.chunks)
      ⟨t, s.passed ++ characters text, s.chunks + 1, s.panicked⟩
    have used : extra = 0 ↔ (encode text).length = text.length := by omega
    rw [used, same] at nothing
    rw [loop]
    refine ⟨chunks, fun returned => ⟨more, ?_, ?_⟩, fun right => (nothing.mpr ⟨right.2, running⟩).2⟩
    · rw [passed, List.append_assoc]
    · exact ⟨fun none => ⟨drawable, (nothing.mp ⟨none, returned⟩).1⟩,
        fun right => (nothing.mpr ⟨right.2, running⟩).1⟩
  · have panics := consoleLoop_undrawable font ready extra (behind s.chunks) text proper drawable
      { s with chunks := s.chunks + 1 }
    obtain ⟨-, -, chunks, -⟩ := consoleLoop_passed fb font (text.length + extra)
      (chunkAt (encode text) (behind s.chunks)) { s with chunks := s.chunks + 1 }
    rw [panics]
    exact ⟨chunks, fun returned => (by cases returned), fun right => absurd right.1 drawable⟩

theorem accepts_console (behind : ℕ → ℕ → UInt8) : Accepts (consoleCallback fb font behind) := by
  intro ctx chars
  unfold consoleCallback
  split_ifs <;> rfl

/-- The console behind some texts. -/
def printTexts (fb : Framebuffer) (font : Font) (behind : ℕ → ℕ → UInt8) (texts : List (List Char))
    (s : Console) : Console :=
  texts.foldl (fun s text => (consoleCallback fb font behind s (encode text)).2) s

/-- After a panic nothing is printed. -/
theorem printTexts_panicked (behind : ℕ → ℕ → UInt8) (texts : List (List Char)) {s : Console}
    (panicked : s.panicked = true) : printTexts fb font behind texts s = s := by
  induction texts with
  | nil => rfl
  | cons text texts ih =>
    have stays : (consoleCallback fb font behind s (encode text)).2 = s := by
      unfold consoleCallback
      rw [if_pos panicked]
    rw [printTexts, List.foldl_cons, stays]
    exact ih

variable (font) in
/-- **The chunks of a run.**  Nothing but their characters is passed when each of them has only
characters of one byte or a terminator behind it, and none is a panic. -/
theorem printTexts_passed (ready : fb.ready = true) (behind : ℕ → ℕ → UInt8)
    (texts : List (List Char)) : ∀ s : Console, s.panicked = false → Char.ofNat 0 ∉ texts.flatten →
      ((printTexts fb font behind texts s).panicked = false → ∃ more,
        (printTexts fb font behind texts s).passed = s.passed ++ more ∧
        texts.flatten.length ≤ more.length ∧
        (more = characters texts.flatten ↔ ∀ p ∈ texts.zipIdx s.chunks, PrintedRight behind p)) ∧
      ((∀ p ∈ texts.zipIdx s.chunks, PrintedRight behind p) →
        (printTexts fb font behind texts s).panicked = false) := by
  induction texts with
  | nil =>
    intro s running _
    exact ⟨fun _ => ⟨[], (List.append_nil _).symm, Nat.le_refl _, fun _ p mem => (by cases mem),
      fun _ => rfl⟩, fun _ => running⟩
  | cons text texts ih =>
    intro s running proper
    rw [List.flatten_cons, List.mem_append, not_or] at proper
    obtain ⟨chunks, first, survives⟩ :=
      consoleCallback_text font ready behind text proper.1 s running
    have split : printTexts fb font behind (text :: texts) s =
        printTexts fb font behind texts (consoleCallback fb font behind s (encode text)).2 := rfl
    rw [split, List.zipIdx_cons, List.forall_mem_cons, ← chunks]
    cases returned : (consoleCallback fb font behind s (encode text)).2.panicked with
    | true =>
      rw [printTexts_panicked behind texts returned, returned]
      refine ⟨fun none => (by cases none), fun right => ?_⟩
      rw [survives right.1] at returned
      cases returned
    | false =>
      obtain ⟨extra, passed, none⟩ := first returned
      obtain ⟨rest, good⟩ := ih (consoleCallback fb font behind s (encode text)).2 returned proper.2
      refine ⟨fun all => ?_, fun right => good right.2⟩
      obtain ⟨more, later, long, exact⟩ := rest all
      have size : (characters text).length = text.length := List.length_map ..
      refine ⟨characters text ++ extra ++ more, ?_, ?_, ?_⟩
      · rw [later, passed, List.append_assoc]
      · rw [List.flatten_cons, List.length_append, List.length_append, List.length_append, size]
        omega
      · rw [← none, ← exact, List.flatten_cons, characters_append, List.append_assoc,
          List.append_cancel_left_eq]
        -- what is passed behind a chunk cannot stand for a later character: there are too many
        constructor
        · intro same
          have total := congrArg List.length same
          rw [List.length_append, show (characters texts.flatten).length = texts.flatten.length from
            List.length_map ..] at total
          have nothing : extra = [] := List.length_eq_zero_iff.mp (by omega)
          rw [nothing, List.nil_append] at same
          exact ⟨nothing, same⟩
        · rintro ⟨rfl, rfl⟩
          rfl

end Loop

/-! ## `printf` -/

theorem feed_console (fb : Framebuffer) (font : Font) (behind : ℕ → ℕ → UInt8)
    (texts : List (List Char)) (s : Console) :
    feed (consoleCallback fb font behind) s (texts.map encode) =
      (true, printTexts fb font behind texts s) := by
  rw [(accepts_console behind).feed, List.foldl_map]
  rfl

theorem encode_flatten (texts : List (List Char)) :
    (texts.map encode).flatten = encode texts.flatten := by
  rw [encode, List.flatMap_def, List.map_flatten, List.flatten_flatten, List.map_map]
  rfl

/-- **The console prints what it is given, as long as every character has an entry in the font and
every chunk has only characters of one byte or a terminator behind it.**  For one chunk, and for the
chunks of a run: the output is then the characters of the whole byte stream. -/
theorem console_prints_iff (fb : Framebuffer) (font : Font) (behind : ℕ → ℕ → UInt8)
    (callback : PrintfCallback Console) (user : callback ∈ consoleCallbacks fb font behind)
    (ready : fb.ready = true) :
    (∀ (text : List Char) (s : Console), Char.ofNat 0 ∉ text → s.panicked = false →
      ((callback s (encode text)).2.passed = s.passed ++ characters text ∧
          (callback s (encode text)).2.panicked = false ↔
        Drawable text ∧ (OneByte text ∨ behind s.chunks 0 = 0))) ∧
    ∀ (format : List Byte) (args left : List VaArg) (out : List Byte) (texts : List (List Char))
      (t : Terminal), delivers format args = .ok (out, left) →
      (callsMade collect [] format args).map Prod.fst = texts.map encode →
      Char.ofNat 0 ∉ texts.flatten →
      ∃ n s, vcbprintf (.start t) (some callback) (some format) args = .ok (n, s) ∧
        out = encode texts.flatten ∧
        (s.passed = characters texts.flatten ∧ s.panicked = false ↔
          ∀ p ∈ texts.zipIdx, Drawable p.1 ∧ (OneByte p.1 ∨ behind p.2 0 = 0)) := by
  have same : callback = consoleCallback fb font behind := by
    simpa [consoleCallbacks, printfCallback, vprintfCallback, panicCallback] using user
  subst same
  constructor
  · intro text s proper running
    obtain ⟨-, passed, survives⟩ := consoleCallback_text font ready behind text proper s running
    constructor
    · rintro ⟨exact, returned⟩
      obtain ⟨more, all, nothing⟩ := passed returned
      rw [all, List.append_cancel_left_eq, List.append_right_eq_self] at exact
      exact nothing.mp exact
    · intro right
      have returned := survives right
      obtain ⟨more, all, nothing⟩ := passed returned
      rw [nothing.mpr right, List.append_nil] at all
      exact ⟨all, returned⟩
  · intro format args left out texts t given chunks proper
    rw [callsMade_eq, accepts_collect.handed] at chunks
    obtain ⟨passed, survives⟩ := printTexts_passed font ready behind texts (.start t) rfl proper
    have fed := feed_console fb font behind texts (.start t)
    rw [← chunks] at fed
    have returned := vcbprintf_accepted fed
    obtain ⟨ends, rfl⟩ := scan_of_delivers given
    rw [ends] at returned
    refine ⟨_, _, returned, ?_, ?_⟩
    · rw [chunks, encode_flatten]
    constructor
    · rintro ⟨exact, alive⟩
      obtain ⟨more, all, -, right⟩ := passed alive
      exact right.mp (all.symm.trans exact)
    · intro good
      have alive := survives good
      obtain ⟨more, all, -, right⟩ := passed alive
      exact ⟨all.trans (right.mpr good), alive⟩

/-- A conversion behind the first chunk, and terminators behind the others. -/
def conversionBehind : ℕ → ℕ → UInt8 := fun chunk _ => if chunk = 0 then ascii '%' else 0

/-- `é%d` with 5 -/
theorem console_prints_conversion :
    ((printfCallback exampleScreen blankFont conversionBehind (.start (.start fun _ => 0))
          (encode ['é'])).2.passed = [] ++ characters ['é'] ∧
        (printfCallback exampleScreen blankFont conversionBehind (.start (.start fun _ => 0))
          (encode ['é'])).2.panicked = false ↔
      Drawable ['é'] ∧ (OneByte ['é'] ∨ conversionBehind 0 0 = 0)) ∧
    ∃ n s, vcbprintf (.start (.start fun _ => 0))
        (some (printfCallback exampleScreen blankFont conversionBehind))
        (some ([0xC3, 0xA9] ++ "%d".toList.map ascii)) [.int 5] = .ok (n, s) ∧
      [0xC3, 0xA9] ++ [ascii '5'] = encode [['é'], [], ['5']].flatten ∧
      (s.passed = characters [['é'], [], ['5']].flatten ∧ s.panicked = false ↔
        ∀ p ∈ [['é'], [], ['5']].zipIdx,
          Drawable p.1 ∧ (OneByte p.1 ∨ conversionBehind p.2 0 = 0)) :=
  have prints := console_prints_iff exampleScreen blankFont conversionBehind
    (printfCallback exampleScreen blankFont conversionBehind) (.head _) rfl
  ⟨prints.1 ['é'] (.start (.start fun _ => 0)) (by decide) rfl,
    prints.2 ([0xC3, 0xA9] ++ "%d".toList.map ascii) [.int 5] [] ([0xC3, 0xA9] ++ [ascii '5'])
      [['é'], [], ['5']] (.start fun _ => 0) (by decide +kernel) (by decide +kernel) (by decide)⟩

/-- In `é%d` the percent sign is printed as well, and of two CJK characters none is printed. -/
theorem console_prints_percent :
    (printfCallback exampleScreen blankFont conversionBehind (.start (.start fun _ => 0))
        (encode ['é'])).2.passed = characters ['é'] ++ [[ascii '%']] ∧
      characters ['é'] ++ [[ascii '%']] ≠ characters ['é'] ∧
      (printfCallback exampleScreen blankFont (fun _ _ => 0) (.start (.start fun _ => 0))
        (encode ['中', '国'])).2.passed = [] ∧
      (printfCallback exampleScreen blankFont (fun _ _ => 0) (.start (.start fun _ => 0))
        (encode ['中', '国'])).2.panicked = true := by
  refine ⟨rfl, by decide, rfl, rfl⟩

end Vineyard
