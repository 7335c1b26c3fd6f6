import Vineyard.Stdio.FieldWidth

/-!
# Formats are compositional

A list of items delivers what its items deliver alone, each with its own arguments, as long as every
conversion has room in the local arrays of the formatter.  A conversion without room ends the run, and
nothing behind it is delivered.
-/

namespace Vineyard

open Programs Programs.Prog

/-! ## One item -/

/-- A conversion whose part is fetched from its argument prints it. -/
theorem Prints.fetched {d : Directive} {specifier : Byte} {fetch : FetchM Part} {a : VaArg}
    {part : Part} (known : fetchPart d specifier = some fetch)
    (run : ∀ more, fetch.run (a :: more) = (.ok part, more)) :
    Prints ((convert collect d specifier).getD (pure ())) [a] part := by
  intro s good more given
  refine ⟨{ s with args := more }, ?_, rfl, rfl, good⟩
  have fetched : (fetch.on argsLeft).run s = (.ok part, { s with args := more }) := by
    rw [run_on, show argsLeft.view s = a :: more from given, run]
    rfl
  rw [convert_eq, known, Option.map_some, Option.getD_some, run_bind_of_ok fetched]

/-- A conversion prints one part, which fits exactly when the conversion has room. -/
theorem Conversion.act_part {c : Conversion} {args : List VaArg}
    (typed : args.map VaArg.type = c.argTypes) :
    ∃ part, Prints c.act args part ∧ (part.Fits ↔ c.HasRoom args) := by
  by_cases integer : c.specifier.IsInteger
  · exact ⟨_, Conversion.act_prints integer typed, c.part_fits_iff args _⟩
  have room : c.HasRoom args := by
    cases named : c.specifier <;> simp [named, Specifier.IsInteger, HasRoom] at integer ⊢
  obtain ⟨first, a, rfl, argTyped, read⟩ := c.width_adds typed
  obtain ⟨flags, width, precision, m, sp⟩ := c
  cases sp with
  | c =>
    cases a with
    | int v =>
      refine ⟨.char (UInt8.ofBitVec (v.setWidth 8)), ?_, by simp [Part.Fits, Part.targets, room]⟩
      exact Prints.bind read (Prints.fetched rfl fun _ => rfl)
    | long | pointer | string => cases argTyped
  | s =>
    cases a with
    | string chars =>
      refine ⟨.string (chars.take (if precisionOf precision < chars.length then precisionOf precision
        else chars.length)), ?_, by simp [Part.Fits, Part.targets, room]⟩
      exact Prints.bind read (Prints.fetched rfl fun _ => rfl)
    | int | long | pointer => cases argTyped
  | d | i | o | u | x | X | p => exact absurd trivial integer

/-- The local arrays have room for the item. -/
def FormatItem.HasRoom : FormatItem → List VaArg → Prop
  | .literal _, _ => True
  | .conversion c, args => c.HasRoom args

theorem FormatItem.Matches.adds {i : FormatItem} {args : List VaArg} (matching : i.Matches args)
    (room : i.HasRoom args) : ∃ out, Adds i.act args out () := by
  cases i with
  | literal l =>
    cases matching
    exact ⟨l.chars, l.adds⟩
  | conversion c =>
    obtain ⟨part, prints, fits⟩ := Conversion.act_part matching
    exact ⟨_, prints.adds (fits.mpr room)⟩

theorem FormatItem.Matches.overflows {i : FormatItem} {args : List VaArg} (matching : i.Matches args)
    (noRoom : ¬ i.HasRoom args) : Overflows i.act args := by
  cases i with
  | literal l => exact absurd trivial noRoom
  | conversion c =>
    obtain ⟨part, prints, fits⟩ := Conversion.act_part matching
    exact prints.overflows (mt fits.mp noRoom)

/-! ## A list of items -/

/-- The items one after the other, each with its arguments, deliver what they deliver alone. -/
theorem items_adds (pairs : List (FormatItem × List VaArg)) (matching : ∀ p ∈ pairs, p.1.Matches p.2)
    (room : ∀ p ∈ pairs, p.1.HasRoom p.2) :
    Adds (vcbprintfAll collect (pairs.flatMap fun p => p.1.text)) (pairs.flatMap fun p => p.2)
      (pairs.flatMap fun p => delivered p.1.text p.2) () := by
  induction pairs with
  | nil => exact Adds.pure ()
  | cons p pairs ih =>
    rw [List.forall_mem_cons] at matching room
    obtain ⟨out, act⟩ := matching.1.adds room.1
    have alone : delivered p.1.text p.2 = out := delivered_eq (FormatItem.renders act).alone
    rw [List.flatMap_cons, List.flatMap_cons, List.flatMap_cons, alone]
    exact FormatItem.renders act _ _ _ (ih matching.2 room.2)

/-- The run ends at the first item without room. -/
theorem items_overflow (pairs : List (FormatItem × List VaArg))
    (matching : ∀ p ∈ pairs, p.1.Matches p.2) (noRoom : ∃ p ∈ pairs, ¬ p.1.HasRoom p.2) :
    Overflows (vcbprintfAll collect (pairs.flatMap fun p => p.1.text))
      (pairs.flatMap fun p => p.2) := by
  induction pairs with
  | nil =>
    obtain ⟨p, mem, -⟩ := noRoom
    cases mem
  | cons p pairs ih =>
    rw [List.forall_mem_cons] at matching
    intro s good more given
    rw [List.flatMap_cons, List.append_assoc] at given
    rw [List.flatMap_cons, p.1.loop_run _ good]
    by_cases room : p.1.HasRoom p.2
    · obtain ⟨out, act⟩ := matching.1.adds room
      obtain ⟨t, run, -, left, stillGood⟩ := act s good _ given
      obtain ⟨q, mem, none⟩ := noRoom
      have later : q ∈ pairs := by
        rcases List.mem_cons.mp mem with rfl | later
        · exact absurd room none
        · exact later
      obtain ⟨u, run'⟩ := ih matching.2 ⟨q, later, none⟩ t stillGood more left
      exact ⟨u, (run_bind_of_ok run).trans run'⟩
    · obtain ⟨t, run⟩ := matching.1.overflows room s good _ given
      exact ⟨t, run_bind_of_error run⟩

theorem Overflows.delivers {format : List Byte} {args : List VaArg}
    (overflows : Overflows (vcbprintfAll collect format) args) (more : List VaArg) :
    Vineyard.delivers format (args ++ more) = .error .outOfBounds := by
  obtain ⟨t, run⟩ := overflows (.start [] (args ++ more)) rfl more rfl
  unfold Vineyard.delivers
  rw [run]

/-- **The format language is compositional exactly when every conversion has room.**  For items with
matching arguments, in front of any further arguments, `vcbprintf` then delivers the concatenation of
what each item delivers alone, takes exactly their arguments, and a literal delivers its own bytes. -/
theorem vcbprintf_items_iff (pairs : List (FormatItem × List VaArg)) (more : List VaArg)
    (matching : ∀ p ∈ pairs, p.1.Matches p.2) :
    ((∃ n, vcbprintf [] (some collect) (some (pairs.flatMap fun p => p.1.text))
        ((pairs.flatMap fun p => p.2) ++ more) =
        .ok (n, pairs.flatMap fun p => delivered p.1.text p.2)) ∧
      delivers (pairs.flatMap fun p => p.1.text) ((pairs.flatMap fun p => p.2) ++ more) =
        .ok (pairs.flatMap fun p => delivered p.1.text p.2, more) ∧
      (∀ p ∈ pairs, delivers p.1.text p.2 = .ok (delivered p.1.text p.2, []) ∧
        p.2.length = p.1.argCount) ∧
      ∀ l : Literal, delivered (FormatItem.literal l).text [] = l.chars) ↔
      ∀ p ∈ pairs, p.1.HasRoom p.2 := by
  constructor
  · rintro ⟨-, whole, -⟩
    by_contra noRoom
    simp only [not_forall, exists_prop] at noRoom
    rw [(items_overflow pairs matching noRoom).delivers] at whole
    cases whole
  intro room
  have whole := (items_adds pairs matching room).delivers more
  refine ⟨vcbprintf_of_delivers whole, whole, ?_, ?_⟩
  · intro p mem
    obtain ⟨out, act⟩ := (matching p mem).adds (room p mem)
    have alone := (FormatItem.renders act).alone
    rw [delivered_eq alone]
    exact ⟨alone, (matching p mem).length⟩
  · intro l
    unfold delivered
    rw [(FormatItem.renders l.adds).alone]

/-- `%+#x` with 1 and `a` -/
def signedHex : List (FormatItem × List VaArg) :=
  [(.conversion ⟨[.plus, .hash], .none, none, .none, .x⟩, [.int 1]),
    (.literal ⟨[ascii 'a'], List.cons_ne_nil _ _, by decide +kernel⟩, [])]

/-- The `a` is delivered alone, but not behind `%+#x`. -/
theorem not_items_signedHex :
    (∀ p ∈ signedHex, p.1.Matches p.2) ∧
      (signedHex.flatMap fun p => delivered p.1.text p.2) = [ascii 'a'] ∧
      delivers (signedHex.flatMap fun p => p.1.text) (signedHex.flatMap fun p => p.2) =
        .error .outOfBounds ∧
      ¬ ∃ n, vcbprintf [] (some collect) (some (signedHex.flatMap fun p => p.1.text))
        (signedHex.flatMap fun p => p.2) = .ok (n, signedHex.flatMap fun p =>
          delivered p.1.text p.2) := by
  refine ⟨?_, by decide +kernel, by decide +kernel, ?_⟩
  · intro p mem
    simp only [signedHex, List.mem_cons, List.not_mem_nil, or_false] at mem
    rcases mem with rfl | rfl <;> rfl
  · rintro ⟨n, returns⟩
    have stops : vcbprintf [] (some collect) (some (signedHex.flatMap fun p => p.1.text))
        (signedHex.flatMap fun p => p.2) = .error .outOfBounds := by
      decide +kernel
    rw [stops] at returns
    cases returns

/-- `100%% %*d` with the arguments 4 and 7. -/
def widthPairs : List (FormatItem × List VaArg) :=
  [(.literal ⟨"100% ".toList.map ascii, by decide, by decide +kernel⟩, []),
    (.conversion ⟨[], .star, none, .none, .d⟩, [.int 4, .int 7])]

theorem vcbprintf_items_width :
    delivers (widthPairs.flatMap fun p => p.1.text) ((widthPairs.flatMap fun p => p.2) ++ []) =
      .ok (widthPairs.flatMap fun p => delivered p.1.text p.2, []) :=
  ((vcbprintf_items_iff widthPairs [] (by
    intro p mem
    simp only [widthPairs, List.mem_cons, List.not_mem_nil, or_false] at mem
    rcases mem with rfl | rfl
    · rfl
    · rfl)).mpr (by
    intro p mem
    simp only [widthPairs, List.mem_cons, List.not_mem_nil, or_false] at mem
    rcases mem with rfl | rfl
    · trivial
    · exact ⟨by decide, by decide⟩)).2.1

end Vineyard
