import FunCompiler.Proofs.Pipeline
import FunCompiler.Proofs.Source.Faults

/-!
What a source file holds. Strict decoding undoes the encoding of a text in
UTF-8, one character of one to four bytes after another, and the three ways to
end a line come to the same text. So compiling a file is compiling the text
that was written to it, whichever way its lines end.
-/

namespace FunCompiler

namespace Text.Utf8

/-! ### Bytes of a character -/

/-- A byte that holds six bits of a number behind the start byte. -/
def tailByte (n : Nat) : UInt8 := UInt8.ofNat (n % 64 + 128)

theorem toNat_ofNat {n : Nat} (h : n < 256) : (UInt8.ofNat n).toNat = n :=
  UInt8.toNat_ofNat_of_lt' h

theorem toNat_tailByte (n : Nat) : (tailByte n).toNat = n % 64 + 128 := toNat_ofNat (by omega)

/-- The byte lies in a range. -/
def Admits (range : UInt8 × UInt8) (b : UInt8) : Prop := range.1 ≤ b ∧ b ≤ range.2

theorem admits_tailByte {low high : UInt8} {n : Nat} :
    Admits (low, high) (tailByte n) ↔ low.toNat ≤ n % 64 + 128 ∧ n % 64 + 128 ≤ high.toNat := by
  rw [Admits, UInt8.le_iff_toNat_le, UInt8.le_iff_toNat_le, toNat_tailByte]

theorem admits_anyTail (n : Nat) : Admits anyTail (tailByte n) := by
  refine admits_tailByte.2 ⟨?_, ?_⟩
  · exact Nat.le_add_left ..
  · show n % 64 + 128 ≤ 191
    omega

/-! ### Start bytes -/

theorem announce_one {v : Nat} (h : v ≤ 127) : announce (UInt8.ofNat v) = some (v, []) := by
  have hb := toNat_ofNat (show v < 256 by omega)
  rw [announce, if_pos (by rw [UInt8.le_iff_toNat_le, hb]; exact h), hb]

theorem announce_two {v : Nat} (hlow : 127 < v) (hhigh : v ≤ 2047) :
    announce (UInt8.ofNat (v / 64 % 32 + 192)) = some (v / 64, [anyTail]) := by
  have hb := toNat_ofNat (show v / 64 % 32 + 192 < 256 by omega)
  simp only [announce, UInt8.le_iff_toNat_le, UInt8.lt_iff_toNat_lt, hb, UInt8.reduceToNat]
  rw [if_neg (by omega), if_neg (by omega), if_pos (by omega),
    show v / 64 % 32 + 192 - 0xc0 = v / 64 by omega]

/-- The second of three bytes is restricted where the first leaves room for overlong forms
or surrogates. -/
theorem announce_three {v : Nat} (hlow : 2047 < v) (hhigh : v ≤ 65535) (hvalid : v.isValidChar) :
    ∃ range, announce (UInt8.ofNat (v / 4096 % 16 + 224)) = some (v / 4096, [range, anyTail]) ∧
      Admits range (tailByte (v / 64)) := by
  have hb := toNat_ofNat (show v / 4096 % 16 + 224 < 256 by omega)
  simp only [announce, UInt8.le_iff_toNat_le, UInt8.lt_iff_toNat_lt, ← UInt8.toNat_inj, hb,
    UInt8.reduceToNat]
  rw [if_neg (by omega), if_neg (by omega), if_neg (by omega)]
  by_cases hzero : v / 4096 = 0
  · refine ⟨_, by rw [if_pos (by omega), hzero], admits_tailByte.2 ?_⟩
    simp only [UInt8.reduceToNat]
    omega
  by_cases hsurrogate : v / 4096 = 13
  · refine ⟨_, by rw [if_neg (by omega), if_pos (by omega), hsurrogate], admits_tailByte.2 ?_⟩
    simp only [UInt8.reduceToNat]
    omega
  · refine ⟨anyTail, ?_, admits_anyTail _⟩
    rw [if_neg (by omega), if_neg (by omega), if_pos (by omega),
      show v / 4096 % 16 + 224 - 0xe0 = v / 4096 by omega]

/-- The second of four bytes is restricted where the first leaves room for overlong forms
or numbers beyond the last character. -/
theorem announce_four {v : Nat} (hlow : 65535 < v) (hvalid : v.isValidChar) :
    ∃ range, announce (UInt8.ofNat (v / 262144 % 8 + 240)) =
        some (v / 262144, [range, anyTail, anyTail]) ∧ Admits range (tailByte (v / 4096)) := by
  have hb := toNat_ofNat (show v / 262144 % 8 + 240 < 256 by omega)
  simp only [announce, UInt8.le_iff_toNat_le, UInt8.lt_iff_toNat_lt, ← UInt8.toNat_inj, hb,
    UInt8.reduceToNat]
  rw [if_neg (by omega), if_neg (by omega), if_neg (by omega), if_neg (by omega),
    if_neg (by omega), if_neg (by omega)]
  by_cases hzero : v / 262144 = 0
  · refine ⟨_, by rw [if_pos (by omega), hzero], admits_tailByte.2 ?_⟩
    simp only [UInt8.reduceToNat]
    omega
  by_cases hlast : v / 262144 = 4
  · refine ⟨_, by rw [if_neg (by omega), if_neg (by omega), if_pos (by omega), hlast],
      admits_tailByte.2 ?_⟩
    simp only [UInt8.reduceToNat]
    omega
  · refine ⟨anyTail, ?_, admits_anyTail _⟩
    rw [if_neg (by omega), if_pos (by omega),
      show v / 262144 % 8 + 240 - 0xf0 = v / 262144 by omega]

/-! ### Decoding -/

/-- In the given state the decoder makes one character of the bytes and goes on behind
them. -/
def Completes (pending : Option Pending) (bytes : List UInt8) (c : Char) : Prop :=
  ∀ position more, ∃ behind, decodeFrom position pending (bytes ++ more) =
    (c :: ·) <$> decodeFrom behind none more

variable {bits n v : Nat} {range next : UInt8 × UInt8} {later : List (UInt8 × UInt8)} {b : UInt8}
  {seen bytes : List UInt8} {c : Char}

theorem completes_alone (h : announce b = some (v, [])) : Completes none [b] (Char.ofNat v) := by
  intro position more
  refine ⟨position + 1, ?_⟩
  rw [List.singleton_append, decodeFrom, h]

theorem completes_start (h : announce b = some (bits, next :: later))
    (hrest : Completes (some ⟨bits, next, later, [b]⟩) bytes c) :
    Completes none (b :: bytes) c := by
  intro position more
  obtain ⟨behind, hbehind⟩ := hrest position more
  refine ⟨behind, ?_⟩
  rw [List.cons_append, decodeFrom, h, ← hbehind]

/-- A byte in the middle of a sequence adds its bits. -/
theorem completes_middle (h : Admits range (tailByte n))
    (hrest : Completes (some ⟨64 * bits + n % 64, next, later, seen ++ [tailByte n]⟩) bytes c) :
    Completes (some ⟨bits, range, next :: later, seen⟩) (tailByte n :: bytes) c := by
  intro position more
  obtain ⟨behind, hbehind⟩ := hrest position more
  refine ⟨behind, ?_⟩
  rw [List.cons_append, decodeFrom, ← hbehind]
  refine (if_pos h).trans ?_
  rw [toNat_tailByte, Nat.add_sub_cancel]

theorem completes_last (h : Admits range (tailByte n)) (hbits : 64 * bits + n % 64 = v) :
    Completes (some ⟨bits, range, [], seen⟩) [tailByte n] (Char.ofNat v) := by
  intro position more
  refine ⟨position + seen.length + 1, ?_⟩
  rw [List.singleton_append, decodeFrom]
  refine (if_pos h).trans ?_
  rw [toNat_tailByte, Nat.add_sub_cancel, hbits]

/-- The bytes of the character with that number. -/
def encodeNumber (v : Nat) : List UInt8 :=
  if v ≤ 127 then [UInt8.ofNat v]
  else if v ≤ 2047 then [UInt8.ofNat (v / 64 % 32 + 192), tailByte v]
  else if v ≤ 65535 then [UInt8.ofNat (v / 4096 % 16 + 224), tailByte (v / 64), tailByte v]
  else
    [UInt8.ofNat (v / 262144 % 8 + 240), tailByte (v / 4096), tailByte (v / 64), tailByte v]

/-- The bytes of a character make up its number again. -/
theorem completes_encodeNumber (hvalid : v.isValidChar) :
    Completes none (encodeNumber v) (Char.ofNat v) := by
  unfold encodeNumber
  split
  · exact completes_alone (announce_one ‹_›)
  split
  · exact completes_start (announce_two (by omega) ‹_›)
      (completes_last (admits_anyTail v) (by omega))
  split
  · obtain ⟨range, hstart, hsecond⟩ := announce_three (by omega) ‹_› hvalid
    exact completes_start hstart
      (completes_middle hsecond (completes_last (admits_anyTail v) (by omega)))
  · obtain ⟨range, hstart, hsecond⟩ := announce_four (by omega) hvalid
    exact completes_start hstart (completes_middle hsecond
      (completes_middle (admits_anyTail _) (completes_last (admits_anyTail v) (by omega))))

theorem completes_encodeChar (c : Char) : Completes none (String.utf8EncodeChar c) c := by
  have hnumber := completes_encodeNumber c.valid
  rwa [show Char.ofNat c.val.toNat = c from Char.ofNat_toNat c] at hnumber

theorem decodeFrom_encode (position : Nat) (cs : List Char) :
    decodeFrom position none (cs.flatMap String.utf8EncodeChar) = .ok cs := by
  induction cs generalizing position with
  | nil => rfl
  | cons c cs ih =>
      obtain ⟨behind, hchar⟩ :=
        completes_encodeChar c position (cs.flatMap String.utf8EncodeChar)
      rw [List.flatMap_cons, hchar, ih behind]
      rfl

/-- Decoding undoes the encoding of a text. -/
theorem decode_toUTF8 (s : String) : decode s.toUTF8.data.toList = .ok s.toList := by
  have hbytes : s.toUTF8.data.toList = s.toList.flatMap String.utf8EncodeChar := by
    rw [String.toUTF8_eq_toByteArray, ← String.ofList_toList (s := s), String.toByteArray_ofList,
      List.utf8Encode, List.toList_data_toByteArray, String.ofList_toList]
  rw [hbytes, decode, decodeFrom_encode]

end Text.Utf8

/-! ### Line endings -/

namespace Text

/-- The characters with every line feed replaced. -/
def replaceFeeds (ending cs : List Char) : List Char :=
  cs.flatMap fun c => if c = '\n' then ending else [c]

/-- The text with its lines ended in another way. -/
def endLines (ending s : String) : String := String.ofList (replaceFeeds ending.toList s.toList)

theorem unifyNewlines_cons {c : Char} (h : c ≠ '\r') (cs : List Char) :
    unifyNewlines (c :: cs) = c :: unifyNewlines cs := by
  rw [unifyNewlines]
  · rintro _ rfl
    exact absurd rfl h
  · rintro rfl
    exact absurd rfl h

/-- A carriage return alone is a line feed. -/
theorem unifyNewlines_return {cs : List Char} (h : '\n' ∉ cs) :
    unifyNewlines ('\r' :: cs) = '\n' :: unifyNewlines cs := by
  rw [unifyNewlines]
  rintro rest rfl
  exact h (List.mem_cons_self ..)

/-- An ending that is read as a line feed before any further lines is one throughout. -/
theorem unifyNewlines_replaceFeeds {ending : List Char}
    (hending : ∀ cs, unifyNewlines (ending ++ replaceFeeds ending cs) =
      '\n' :: unifyNewlines (replaceFeeds ending cs))
    {cs : List Char} (hcs : '\r' ∉ cs) : unifyNewlines (replaceFeeds ending cs) = cs := by
  induction cs with
  | nil => rfl
  | cons c cs ih =>
      simp only [List.mem_cons, not_or] at hcs
      have hrest := ih hcs.2
      rw [replaceFeeds, List.flatMap_cons, ← replaceFeeds]
      split
      · rename_i hfeed
        rw [hending, hrest, hfeed]
      · rw [List.singleton_append, unifyNewlines_cons (Ne.symm hcs.1), hrest]

/-- No line feed is left where lines end with a carriage return. -/
theorem feed_not_mem_replaceFeeds (cs : List Char) : '\n' ∉ replaceFeeds ['\r'] cs := by
  simp only [replaceFeeds, List.mem_flatMap, not_exists, not_and]
  intro c _
  split
  · decide
  · rename_i hne
    simpa using Ne.symm hne

theorem replaceFeeds_feed (cs : List Char) : replaceFeeds ['\n'] cs = cs := by
  have hsame : ∀ c : Char, (if c = '\n' then ['\n'] else [c]) = [c] := by
    intro c
    split
    · rename_i hfeed
      rw [hfeed]
    · rfl
  simp only [replaceFeeds, hsame, List.flatMap_singleton']

theorem unifyNewlines_endLines {ending s : String} (hending : ending ∈ ["\n", "\r\n", "\r"])
    (hs : '\r' ∉ s.toList) : unifyNewlines (endLines ending s).toList = s.toList := by
  rw [endLines, String.toList_ofList]
  simp only [List.mem_cons, List.not_mem_nil, or_false] at hending
  rcases hending with rfl | rfl | rfl
  · exact unifyNewlines_replaceFeeds (fun cs => unifyNewlines_cons (by decide) _) hs
  · exact unifyNewlines_replaceFeeds (fun cs => rfl) hs
  · exact unifyNewlines_replaceFeeds
      (fun cs => unifyNewlines_return (feed_not_mem_replaceFeeds cs)) hs

end Text

/-! ### Source files -/

open Text

theorem compileBytes_endLines (target : Target) (validate : Bool) (ending : String) {s : String}
    (hending : ending ∈ ["\n", "\r\n", "\r"]) (hs : '\r' ∉ s.toList) :
    compileBytes target validate (endLines ending s).toUTF8.data.toList =
      (compileSource target validate s).mapError .compile := by
  have hsource : sourceOfBytes (endLines ending s).toUTF8.data.toList = .ok s := by
    rw [sourceOfBytes, Utf8.decode_toUTF8]
    show Except.ok (String.ofList (unifyNewlines (endLines ending s).toList)) = _
    rw [unifyNewlines_endLines hending hs, String.ofList_toList]
  rw [compileBytes, hsource]

/-- Compiling the bytes of a text without carriage returns is compiling the text, whether
its lines end with a line feed, with a carriage return before it or with a carriage
return alone. -/
theorem file_compiled_as_text (target : Target) (validate : Bool) (s : String)
    (hs : '\r' ∉ s.toList) :
    compileBytes target validate s.toUTF8.data.toList =
      (compileSource target validate s).mapError .compile ∧
    compileBytes target validate (endLines "\r\n" s).toUTF8.data.toList =
      (compileSource target validate s).mapError .compile ∧
    compileBytes target validate (endLines "\r" s).toUTF8.data.toList =
      (compileSource target validate s).mapError .compile := by
  have hfeed : endLines "\n" s = s := by
    rw [endLines, show "\n".toList = ['\n'] from rfl, replaceFeeds_feed, String.ofList_toList]
  have hbytes := compileBytes_endLines target validate "\n" (by simp) hs
  rw [hfeed] at hbytes
  exact ⟨hbytes, compileBytes_endLines target validate "\r\n" (by simp) hs,
    compileBytes_endLines target validate "\r" (by simp) hs⟩

/-- Characters of two, three and four bytes in a comment, and a fault on the next line. -/
def commentedText : String := "# né €𝄞\nfun main() print é"

theorem commentedText_compiled :
    '\r' ∉ commentedText.toList ∧
    compileSource .elf true commentedText =
      .error (.parse (.unexpected (.character 'é') ⟨2, 18⟩)) ∧
    compileBytes .elf true (endLines "\r\n" commentedText).toUTF8.data.toList =
      .error (.compile (.parse (.unexpected (.character 'é') ⟨2, 18⟩))) ∧
    compileBytes .elf true (endLines "\r" commentedText).toUTF8.data.toList =
      .error (.compile (.parse (.unexpected (.character 'é') ⟨2, 18⟩))) := by
  have hs : '\r' ∉ commentedText.toList := by decide +kernel
  have hparse : Source.parse commentedText = .error (.unexpected (.character 'é') ⟨2, 18⟩) :=
    Source.parse_of_error? (by decide +kernel)
  have hsource : compileSource .elf true commentedText =
      .error (.parse (.unexpected (.character 'é') ⟨2, 18⟩)) :=
    (Pipeline.fails_parse hparse).bind _ []
  obtain ⟨-, hboth, hreturn⟩ := file_compiled_as_text .elf true commentedText hs
  rw [hsource] at hboth hreturn
  exact ⟨hs, hsource, hboth, hreturn⟩

end FunCompiler
