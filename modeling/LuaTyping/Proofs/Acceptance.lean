import LuaTyping.Proofs.Building
import LuaTyping.Proofs.Extraction

set_option autoImplicit false

/-!
# Which texts are read

A text is read exactly if the grammar derives it as a program, and what is read is the meaning of
such a derivation. The chart finds each program that the text begins with; the longest one is taken,
behind which there are only blanks if there is a derivation of the whole text.

## Main results

* `parse_formed`, `parse_written` — what is read from a text is a well-formed chunk, and as it can be
  written, everywhere.
* `exists_parse_of_reads` — a text that is a program up to blanks is read.
* `parse_accepts_exactly` — a text is read exactly if there is a derivation of it, and as
  what a derivation of it means.
-/

namespace LuaTyping

/-- The last number below a bound that passes a test is not before any other. -/
lemma find?_reverse_range {p : Nat → Bool} {k n : Nat} (hk : k < n) (hp : p k) :
    ∃ s, (List.range n).reverse.find? p = some s ∧ k ≤ s ∧ s < n ∧ p s := by
  induction n with
  | zero => exact absurd hk (Nat.not_lt_zero k)
  | succ n ih =>
    rw [List.range_succ, List.reverse_append, List.reverse_singleton, List.singleton_append,
      List.find?_cons]
    split
    · rename_i hn
      exact ⟨n, rfl, Nat.le_of_lt_succ hk, Nat.lt_succ_self n, hn⟩
    · rename_i hn
      have hne : k ≠ n := by
        rintro rfl
        exact absurd hp (by simp [hn])
      obtain ⟨s, hs, hle, hlt, hps⟩ := ih (by omega)
      exact ⟨s, hs, hle, by omega, hps⟩

lemma getD_suffixes (cs : List Char) (place : Nat) :
    (((List.range (cs.length + 1)).map cs.drop).toArray[place]?).getD [] = cs.drop place := by
  by_cases h : place < cs.length + 1
  · simp [h]
  · simp [h, List.drop_eq_nil_of_le (show cs.length ≤ place by omega)]

variable {text : List Char}
variable {stop : Nat} {source : String}

/-- A program ends where the chart has its only alternative complete. -/
lemma valid_program_iff :
    (Item.mk .program 0 1 0).Valid text stop ↔ Reads text [.category .program] 0 stop := by
  constructor
  · rintro ⟨a, ha, -, -, hreads⟩
    refine (Reads.nil 0).category ha ?_
    cases ha
    exact hreads
  · intro h
    obtain ⟨place, k, a, hplace, ha, hreads⟩ :=
      Reads.append_category_iff.1 (show Reads text ([] ++ [.category .program]) 0 stop from h)
    obtain rfl := Reads.nil_iff.1 hplace
    obtain rfl : k = 0 := by
      obtain ⟨hlt, -⟩ := List.getElem?_eq_some_iff.1 ha
      exact Nat.lt_one_iff.1 hlt
    cases ha
    exact ⟨_, rfl, le_rfl, .program, hreads⟩

lemma programEnd_spec (h : programEnd (Chart.ofText text).columns text.length = some stop) :
    stop ≤ text.length ∧ Reads text [.category .program] 0 stop := by
  have hmem := List.mem_of_find?_eq_some h
  rw [List.mem_reverse, List.mem_range] at hmem
  have hhas := List.find?_some h
  exact ⟨Nat.le_of_lt_succ hmem, valid_program_iff.1 (Chart.has_iff.1 hhas)⟩

/-- The end of the longest program that a text begins with is found. -/
lemma exists_programEnd (hstop : stop ≤ text.length) (h : Reads text [.category .program] 0 stop) :
    ∃ s, programEnd (Chart.ofText text).columns text.length = some s ∧ stop ≤ s := by
  obtain ⟨s, hs, hle, -⟩ := find?_reverse_range (Nat.lt_succ_of_le hstop)
    (p := fun stop => Chart.has (Chart.ofText text).columns stop ⟨.program, 0, 1, 0⟩)
    (Chart.has_iff.2 (valid_program_iff.2 h))
  exact ⟨s, hs, hle⟩

variable {file : String} {n : Node}

/-- The conditions under which a text is read. -/
lemma parse_eq_ok_iff :
    parse file source = .ok n ↔
      source.toList.length ≤ (Chart.ofText source.toList).reach ∧
      ∃ stop d, programEnd (Chart.ofText source.toList).columns source.toList.length = some stop ∧
        (skipBlanks stop (source.toList.drop stop)).1 = source.toList.length ∧
        Chart.derivation? source.toList.drop (Chart.ofText source.toList).columns
          (60 * (source.toList.length + 1)) .program 0 stop = some d ∧
        d.piece? file source.toList = some (.node n) := by
  simp only [parse, getD_suffixes]
  constructor
  · intro h
    split at h
    · cases h
    · rename_i hreach
      split at h
      · rename_i m htree
        cases h
        simp only [Option.bind_eq_bind, Option.bind_eq_some_iff] at htree
        obtain ⟨stop, hstop, htree⟩ := htree
        split at htree
        · rename_i hblank
          simp only [Option.bind_eq_some_iff] at htree
          obtain ⟨d, hd, p, hp, hm⟩ := htree
          cases p with
          | node m' =>
            cases hm
            exact ⟨Nat.le_of_not_lt hreach, stop, d, hstop, hblank, hd, hp⟩
          | _ => cases hm
        · cases htree
      · cases h
  · rintro ⟨hreach, stop, d, hstop, hblank, hd, hp⟩
    rw [if_neg (Nat.not_lt_of_le hreach), hstop]
    simp only [Option.bind_eq_bind, Option.bind_some, hblank, if_true, hd, hp]

/-- What is read is the meaning of a derivation of the text. -/
lemma isProgram_of_parse (h : parse file source = .ok n) :
    ∃ d : Derivation, d.IsProgram source.toList ∧ d.piece? file source.toList = some (.node n) := by
  obtain ⟨-, stop, d, hstop, hblank, hd, hp⟩ := parse_eq_ok_iff.1 h
  obtain ⟨hle, hreads⟩ := programEnd_spec hstop
  have hdepth : 60 * (stop - 0) + Category.rank .program < 60 * (source.toList.length + 1) := by
    have := Category.rank_le .program
    omega
  obtain ⟨d', hd', hpart, hfollows, hmake⟩ := Chart.exists_derivation? .program hreads hdepth
  cases hd.symm.trans hd'
  refine ⟨d, ⟨hpart, hfollows, stop, hmake, ?_⟩, hp⟩
  exact hblank ▸ blankRun_skipBlanks stop

/-- What is read from a text is a well-formed chunk. -/
theorem parse_formed (h : parse file source = .ok n) :
    n.Formed Ty.Annotated .chunk := by
  obtain ⟨d, ⟨hpart, hfollows, stop, hmake, -⟩, hp⟩ := isProgram_of_parse h
  obtain ⟨p, hp', hyields⟩ := hfollows.exists_piece? file hmake
  rw [hpart] at hyields
  obtain ⟨m, rfl, hm⟩ := hyields
  obtain rfl := Piece.node.inj (Option.some.inj (hp.symm.trans hp'))
  exact hm

/-- What is read from a text is as it can be written, everywhere. -/
theorem parse_written (h : parse file source = .ok n) :
    n.Everywhere Node.Written :=
  (parse_formed h).everywhere (fun _ _ hr hn => hn.written hr) (by decide)

/-- A text that is a program up to blanks is read. -/
theorem exists_parse_of_reads (file : String)
    (hreads : Reads source.toList [.category .program] 0 stop)
    (hblank : BlankRun source.toList stop source.toList.length) :
    ∃ n, parse file source = .ok n := by
  obtain ⟨s, hs, hle⟩ := exists_programEnd hblank.1 hreads
  obtain ⟨hsize, hprogram⟩ := programEnd_spec hs
  -- Behind the longest program there are only blanks as well.
  have hblanks : BlankRun source.toList s source.toList.length :=
    ⟨hsize, fun place hplace => hblank.2 place (hle.trans hplace)⟩
  have hdepth : 60 * (s - 0) + Category.rank .program < 60 * (source.toList.length + 1) := by
    have := Category.rank_le .program
    omega
  obtain ⟨d, hd, hpart, hfollows, hmake⟩ := Chart.exists_derivation? .program hprogram hdepth
  obtain ⟨p, hp, hyields⟩ := hfollows.exists_piece? file hmake
  rw [hpart] at hyields
  obtain ⟨n, rfl, -⟩ := hyields
  refine ⟨n, parse_eq_ok_iff.2 ⟨?_, s, d, hs, hblanks.skipBlanks_length, hd, hp⟩⟩
  rw [← hblanks.skipBlanks_length]
  exact Chart.skipBlanks_le_reach (valid_program_iff.2 hprogram)

/-- A text is read exactly if the grammar derives it as a program, over lexemes that are the matches
of their terminals' patterns and between which there are only blanks. What is read is the meaning of
such a derivation. -/
theorem parse_accepts_exactly (file source : String) :
    ((∃ n, parse file source = .ok n) ↔ ∃ d : Derivation, d.IsProgram source.toList) ∧
    ∀ n, parse file source = .ok n → ∃ d : Derivation, d.IsProgram source.toList ∧
      d.piece? file source.toList = some (.node n) := by
  refine ⟨⟨?_, ?_⟩, fun n => isProgram_of_parse⟩
  · rintro ⟨n, hn⟩
    exact (isProgram_of_parse hn).imp fun d => And.left
  · rintro ⟨d, hpart, hfollows, stop, hmake, hblank⟩
    have hreads := hfollows.reads (by simp [hpart]) hmake
    rw [hpart] at hreads
    exact exists_parse_of_reads file hreads hblank

end LuaTyping
