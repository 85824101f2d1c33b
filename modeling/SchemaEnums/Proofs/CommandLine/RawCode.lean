import SchemaEnums.Proofs.CommandLine.Run
import SchemaEnums.Proofs.Output.Header

namespace SchemaEnums

open Generator

namespace RawText

theorem slash_not_mem_hex (width n : Nat) : '/' ∉ Text.hex width n := by
  induction width generalizing n with
  | zero => exact List.not_mem_nil
  | succ width ih =>
    have hdigit : ∀ d < 16, '/' ≠ Nat.digitChar d := by decide
    rw [Text.hex, List.mem_append, List.mem_singleton, not_or]
    exact ⟨ih _, hdigit _ (Nat.mod_lt _ (by decide))⟩

theorem slash_not_mem_escaped {c : RawChar} (h : c ≠ .char '/') : '/' ∉ c.escaped := by
  cases c with
  | char c => simpa [RawChar.escaped, eq_comm] using h
  | surrogate n => simp [RawChar.escaped, RawChar.surrogateEscape, slash_not_mem_hex]

theorem escaped_append (s t : RawText) : escaped (s ++ t) = s.escaped ++ t.escaped := by
  simp [escaped]

theorem escaped_ne_empty {t : RawText} (h : t.isText = false) : t.escaped ≠ "" := by
  cases t with
  | nil => cases h
  | cons c t => cases c <;> simp [escaped, RawChar.escaped, RawChar.surrogateEscape]

theorem takeWhile_flatMap_escaped (t : RawText) :
    (t.flatMap (List.reverse ∘ RawChar.escaped)).takeWhile (· != '/') =
      (t.takeWhile (· != .char '/')).flatMap (List.reverse ∘ RawChar.escaped) := by
  induction t with
  | nil => rfl
  | cons c t ih =>
    by_cases hc : c = .char '/'
    · rw [hc]
      rfl
    · have hescaped : ∀ d ∈ c.escaped.reverse, (d != '/') = true := by
        intro d hd
        rw [bne_iff_ne]
        rintro rfl
        exact slash_not_mem_escaped hc (List.mem_reverse.1 hd)
      rw [List.flatMap_cons, Function.comp_apply, List.takeWhile_append_of_pos hescaped, ih,
        List.takeWhile_cons_of_pos (by simpa using hc), List.flatMap_cons, Function.comp_apply]

/-- Escapes hold no slash, so that they do not change what stands behind the last one. -/
theorem baseName_escaped (t : RawText) :
    Path.baseName t.escaped.toList = (escaped (Path.baseName t)).toList := by
  have hreverse (t : RawText) :
      (t.flatMap RawChar.escaped).reverse = t.reverse.flatMap (List.reverse ∘ RawChar.escaped) :=
    List.reverse_flatMap
  rw [escaped, escaped, String.toList_ofList, String.toList_ofList, ← List.reverse_inj, hreverse]
  show (_ : List Char).reverse.reverse = (_ : RawText).reverse.reverse.flatMap _
  rw [List.reverse_reverse, List.reverse_reverse, hreverse]
  exact takeWhile_flatMap_escaped t.reverse

end RawText

namespace CommandLine.Conversion

variable {c : Conversion} {code : String} {bytes : List UInt8}

theorem toOption_eq_some {ε α : Type} {x : Except ε α} {a : α} (h : x.toOption = some a) :
    x = .ok a := by
  cases x with
  | error e => cases h
  | ok b => exact congrArg _ (Option.some.inj h)

theorem exists_generate_of_code (h : codeOfBytes? c.options c.input bytes = some code) :
    ∃ f : FileDescriptor, f.file = some c.input.escaped ∧
      (Generator.generate c.options f).result = .ok code := by
  simp only [codeOfBytes?, Option.bind_eq_bind, Option.bind_eq_some_iff] at h
  obtain ⟨cs, -, f, hload, hcode⟩ := h
  obtain ⟨s, -, rfl⟩ := FileDescriptor.parse_of_load (toOption_eq_some hload)
  exact ⟨_, rfl, toOption_eq_some hcode⟩

/-- The name with its surrogates takes the place of the one that the header shows. -/
theorem rawCode_header {name : RawText} (hname : Path.baseName c.input = name)
    (hraw : name.isText = false) (rest : String) :
    c.rawCode (headerMark ++ name.escaped ++ rest) =
      RawText.ofString headerMark ++ name ++ RawText.ofString rest := by
  have hfront : (headerMark.toList ++ name.escaped.toList).length - name.escaped.length =
      headerMark.toList.length := by
    rw [List.length_append, ← String.length_toList, Nat.add_sub_cancel]
  rw [rawCode, hname, if_neg (by simp [hraw])]
  simp only [headerLines_of_ne_empty (RawText.escaped_ne_empty hraw), List.flatten_singleton,
    hfront, String.toList_append]
  rw [List.drop_left, List.append_assoc, List.take_left]
  simp [RawText.concat, RawText.ofString]

/-- What is written for an input is the code for its bytes, with surrogates in the place of their
escapes. -/
theorem escaped_rawCode (h : codeOfBytes? c.options c.input bytes = some code) :
    (c.rawCode code).escaped = code := by
  cases hraw : RawText.isText (Path.baseName c.input) with
  | true => rw [rawCode, if_pos hraw, RawText.escaped_ofString]
  | false =>
    obtain ⟨f, hfile, hcode⟩ := exists_generate_of_code h
    obtain ⟨rest, hrest⟩ := sourceLine_isPrefix hcode
    have hshown : shownName f.file = (RawText.escaped (Path.baseName c.input)).toList := by
      rw [shownName, hfile]
      exact RawText.baseName_escaped c.input
    have hname : shownName f.file ≠ [] := by
      rw [hshown, ← String.toList_empty, Ne, String.toList_inj]
      exact RawText.escaped_ne_empty hraw
    have htext : code = headerMark ++ RawText.escaped (Path.baseName c.input) ++
        String.ofList ('\n' :: rest) := by
      apply String.toList_inj.1
      rw [← hrest, sourceLine_eq, if_neg hname, hshown]
      simp
    rw [htext, rawCode_header rfl hraw, RawText.escaped_append, RawText.escaped_append,
      RawText.escaped_ofString, RawText.escaped_ofString]

end CommandLine.Conversion

end SchemaEnums
