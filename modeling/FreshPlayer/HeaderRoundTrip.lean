import FreshPlayer.HeaderParser

/-! The headers that are rebuilt read as the ones they were made of. -/
namespace FreshPlayer
namespace HeaderParser

open CText

/-! Both passes over the lines. -/

theorem countHeaders_eq (s : Text) {cnt : ℕ} (h : cnt < 2^32) :
    countHeaders cnt s = (cnt+(tokens delimiter s).length) % 2^32 := by
  induction s using tokens.induct delimiter generalizing cnt with
  | case1 s hs =>
    rw [countHeaders,tokens_none hs,List.length_nil,Nat.add_zero]
    split
    · exact (Nat.mod_eq_of_lt h).symm
    · simp_all
  | case2 s part rest hs ih =>
    rw [countHeaders,tokens_some hs,List.length_cons]
    split
    · simp_all
    · rename_i x saveptr hs'
      cases Option.some.inj (hs.symm.trans hs')
      rw [ih (Nat.mod_lt _ (by decide)),Nat.mod_add_mod]
      congr 1
      omega

/-- Places `names` and `values` written, and `m` more for lines that are there. -/
theorem saveHeaders_eq (s : Text) {names values : List Text} (hl : values.length = names.length)
    {m : ℕ} (hm : m ≤ (tokens delimiter s).length) :
    saveHeaders (names.length+m) names.length s (names.map some ++ List.replicate m none)
        (values.map some ++ List.replicate m none) =
      ((names ++ ((tokens delimiter s).take m).map headerName).map some,
        (values ++ ((tokens delimiter s).take m).map headerValue).map some) := by
  induction s using tokens.induct delimiter generalizing names values m with
  | case1 s hs =>
    rw [tokens_none hs,List.length_nil,Nat.le_zero] at hm
    subst hm
    rw [saveHeaders]
    split <;> simp_all
  | case2 s part rest hs ih =>
    rw [saveHeaders]
    split
    · simp_all
    · rename_i x saveptr hs'
      cases Option.some.inj (hs.symm.trans hs')
      cases m with
      | zero => simp
      | succ m =>
        rw [tokens_some hs] at hm ⊢
        have hset : ∀ (xs : List Text) (t : Text), xs.length = names.length →
            (xs.map some ++ List.replicate (m+1) none).set names.length (some t) =
              (xs ++ [t]).map some ++ List.replicate m none := by
          intro xs t hx
          simp [List.replicate_succ,hx]
        have hlen : (names ++ [headerName part]).length = names.length+1 := by simp
        have := @ih (names ++ [headerName part]) (values ++ [headerValue part]) (by simp [hl]) m
          (Nat.le_of_succ_le_succ hm)
        rw [hlen,Nat.add_assoc,Nat.add_comm 1] at this
        rw [if_pos (by omega),hset names _ rfl,hset values _ hl,this]
        simp

/-- What is known of a status line and the lines behind it. -/
def parsed (part : Text) (lines : List Text) : ParsedHeaders :=
  ⟨lines.length,lines.map (some ∘ headerName),lines.map (some ∘ headerValue),some part,
    httpCode (some part)⟩

theorem hpParseHeaders_eq {headers part : Text} {lines : List Text}
    (h : tokens delimiter headers = part::lines) :
    hpParseHeaders (some headers) = parsed part (lines.take (lines.length % 2^32)) := by
  cases hs : strtokR delimiter headers with
  | none => simp [tokens_none hs] at h
  | some p =>
    obtain ⟨first,rest⟩ := p
    rw [tokens_some hs] at h
    obtain ⟨rfl,rfl⟩ := List.cons.inj h
    have hcount : countHeaders 0 (behindStatus headers) =
        (tokens delimiter rest).length % 2^32 := by
      rw [behindStatus,hs,countHeaders_eq rest (by decide),Nat.zero_add]
    have hle := Nat.mod_le (tokens delimiter rest).length (2^32)
    have hsave := @saveHeaders_eq rest [] [] rfl _ hle
    simp only [List.length_nil,Nat.zero_add,List.map_nil,List.nil_append] at hsave
    simp only [hpParseHeaders,hcount]
    rw [behindStatus,hs]
    dsimp only
    have hcnt : ((tokens delimiter rest).take ((tokens delimiter rest).length % 2^32)).length =
        (tokens delimiter rest).length % 2^32 := by
      rw [List.length_take,Nat.min_eq_left hle]
    rw [hsave,parsed,hcnt,List.map_map,List.map_map]
    rfl

theorem hpParseHeaders_empty {headers : Text} (h : tokens delimiter headers = []) :
    (hpParseHeaders (some headers)).cnt = 0 := by
  cases hs : strtokR delimiter headers with
  | none =>
    simp only [hpParseHeaders,behindStatus,hs]
    rw [countHeaders_eq [] (by decide),tokens_none rfl]
    rfl
  | some p => simp [tokens_some (show strtokR delimiter headers = some (p.1,p.2) from hs)] at h

/-! A line and the one written for it. -/

def headerLine (line : Text) : Text := headerName line ++ bytes ": " ++ headerValue line

theorem headerName_headerLine (line : Text) : headerName (headerLine line) = headerName line := by
  have hname : ∀ c ∈ headerName line, decide (c ≠ colon) = true := fun _ => List.mem_takeWhile_imp
  rw [headerLine,headerName,List.append_assoc,List.takeWhile_append_of_pos hname]
  exact List.append_nil _

theorem headerValue_dropWhile (line : Text) :
    (headerValue line).dropWhile isSpace = headerValue line := by
  unfold headerValue
  split
  · rfl
  · exact List.dropWhile_eq_self_iff.mpr fun hl => by
      simpa using List.dropWhile_get_zero_not (p := isSpace) _ hl

theorem headerValue_headerLine (line : Text) :
    headerValue (headerLine line) = headerValue line := by
  have hname : ∀ c ∈ headerName line, decide (c ≠ colon) = true := fun _ => List.mem_takeWhile_imp
  rw [headerLine]
  generalize hv : headerValue line = value
  rw [headerValue,List.append_assoc,List.dropWhile_append_of_pos hname]
  change (32::value).dropWhile isSpace = value
  rw [← hv]
  exact headerValue_dropWhile line

theorem mem_headerLine {c : UInt8} {line : Text} (h : c ∈ headerLine line) :
    c ∈ line ∨ c ∈ bytes ": " := by
  rcases List.mem_append.mp h with h | h
  · exact (List.mem_append.mp h).imp_left fun h => (List.takeWhile_prefix _).subset h
  · unfold headerValue at h
    split at h
    · cases h
    · rename_i d v hv
      have hmem : c ∈ line.dropWhile (· ≠ colon) := by
        rw [hv]
        exact List.mem_cons_of_mem d ((List.dropWhile_suffix _).subset h)
      exact Or.inl ((List.dropWhile_suffix _).subset hmem)

theorem headerLine_isToken {line : Text} (h : IsToken delimiter line) :
    IsToken delimiter (headerLine line) := by
  refine ⟨by simp [headerLine,bytes],fun c hc => ?_⟩
  rcases mem_headerLine hc with hm | hm
  · exact h.free c hm
  · have hall : (bytes ": ").all (· ∉ delimiter) = true := by decide
    exact of_decide_eq_true (List.all_eq_true.mp hall c hm)

/-! The buffer. -/

/-- A text written so far, and room for `m` more. -/
def written (w : Text) (m : ℕ) : Buffer × ℕ := (w.map some ++ List.replicate m none,w.length)

theorem memcpy_written (w s : Text) (m : ℕ) :
    memcpy (w.map some ++ List.replicate (s.length+m) none) w.length s =
      some ((w ++ s).map some ++ List.replicate m none) := by
  unfold memcpy
  rw [if_pos (by simp)]
  simp [List.drop_append]

theorem append_written (w s : Text) (m : ℕ) :
    append s (written w (s.length+m)) = some (written (w ++ s) m) := by
  unfold append written
  rw [memcpy_written]
  simp

/-- The lines from the `k`th on, as they are copied. -/
def copied (k : ℕ) : List Text → Text
  | [] => []
  | line::lines => (if k ≠ 0 then newline else []) ++ headerLine line ++ copied (k+1) lines

theorem copied_succ (k : ℕ) (lines : List Text) :
    copied (k+1) lines = (lines.map fun line => newline ++ headerLine line).flatten := by
  induction lines generalizing k with
  | nil => rfl
  | cons line lines ih => simp [copied,ih]

theorem copied_zero (lines : List Text) :
    copied 0 lines = List.intercalate newline (lines.map headerLine) := by
  cases lines with
  | nil => rfl
  | cons line lines =>
    rw [copied,copied_succ]
    induction lines generalizing line with
    | nil => simp
    | cons next lines ih =>
      have := ih next
      simp_all

/-- Room for the lines, and one place more for each. -/
def room (lines : List Text) : ℕ := (lines.map fun line => (headerLine line).length+1).sum

theorem copied_length_le (k : ℕ) (lines : List Text) : (copied k lines).length ≤ room lines := by
  induction lines generalizing k with
  | nil => exact Nat.le_refl _
  | cons line lines ih =>
    have := ih (k+1)
    have hnl : (if k ≠ 0 then newline else []).length ≤ 1 := by split <;> decide
    simp only [copied,room,List.length_append,List.map_cons,List.sum_cons] at this ⊢
    omega

variable {part : Text} {done lines : List Text}

theorem entry_name : entry (parsed part (done ++ lines)).name done.length =
    lines.head?.map headerName := by
  cases lines <;> simp [entry,parsed]

theorem entry_value : entry (parsed part (done ++ lines)).value done.length =
    lines.head?.map headerValue := by
  cases lines <;> simp [entry,parsed]

theorem headersLen_parsed :
    headersLen (parsed part (done ++ lines)) lines.length done.length = some (room lines) := by
  induction lines generalizing done with
  | nil => rfl
  | cons line lines ih =>
    have hnext := @ih (done ++ [line])
    rw [List.append_assoc,List.singleton_append,List.length_append,List.length_singleton] at hnext
    rw [List.length_cons,headersLen,entry_name,entry_value]
    simp only [List.head?_cons,Option.map_some,Option.bind_some,hnext,room,headerLine,
      List.length_append,List.map_cons,List.sum_cons]
    rfl

theorem copyHeaders_parsed (w : Text) (m : ℕ) :
    copyHeaders (parsed part (done ++ lines)) lines.length done.length
        (written w ((copied done.length lines).length+m)) =
      some (written (w ++ copied done.length lines) m) := by
  induction lines generalizing done w with
  | nil => simp [copyHeaders,copied]
  | cons line lines ih =>
    have hnext := fun w => @ih (done ++ [line]) w
    simp only [List.append_assoc,List.singleton_append,List.length_append,
      List.length_singleton] at hnext
    rw [List.length_cons,copyHeaders,entry_name,entry_value]
    generalize hc : copied (done.length+1) lines = rest at hnext
    have hnl : (if done.length ≠ 0 then append newline (written w
        ((copied done.length (line::lines)).length+m)) else
          some (written w ((copied done.length (line::lines)).length+m))) =
        some (written (w ++ if done.length ≠ 0 then newline else [])
          ((headerName line).length+((bytes ": ").length+((headerValue line).length+
            (rest.length+m))))) := by
      have hlen : (copied done.length (line::lines)).length+m =
          (if done.length ≠ 0 then newline else []).length+((headerName line).length+
            ((bytes ": ").length+((headerValue line).length+(rest.length+m)))) := by
        simp only [copied,headerLine,hc,List.length_append]
        omega
      rw [hlen]
      split
      · exact append_written ..
      · simp
    simp only [List.head?_cons,Option.map_some,Option.bind_some,hnl,append_written,hnext]
    simp [copied,headerLine,hc]

theorem readString_written {s : Text} (h : 0 ∉ s) (b : Buffer) :
    readString (s.map some ++ some 0::b) = some s := by
  induction s with
  | nil => rfl
  | cons c s ih =>
    have hc : c ≠ 0 := fun he => h (he ▸ List.mem_cons_self)
    simp [readString,hc,ih fun hm => h (List.mem_cons_of_mem c hm)]

/-- The buffer has room for the headers and the zero behind them. -/
theorem reconstructHeaders_parsed (part : Text) (lines : List Text) :
    ∃ m, reconstructHeaders (parsed part lines) =
      some ((copied 0 lines).map some ++ some 0::List.replicate m none) := by
  obtain ⟨m,hm⟩ := Nat.exists_eq_add_of_le (copied_length_le 0 lines)
  have hlen := @headersLen_parsed part [] lines
  have hcopy := @copyHeaders_parsed part [] lines [] (m+1)
  simp only [List.nil_append,List.length_nil,written,List.map_nil] at hlen hcopy
  have hzero := memcpy_written (copied 0 lines) [0] m
  rw [List.length_singleton,Nat.add_comm] at hzero
  refine ⟨m,?_⟩
  unfold reconstructHeaders
  have hcnt : (parsed part lines).cnt = lines.length := rfl
  rw [hcnt,hlen,Option.bind_some,hm,Nat.add_assoc,hcopy,Option.bind_some,hzero]
  simp

theorem headerLine_free {line : Text} (h : 0 ∉ line) : 0 ∉ headerLine line := fun h0 =>
  (mem_headerLine h0).elim h (by decide)

theorem copied_free {lines : List Text} (h : ∀ line ∈ lines, 0 ∉ line) (k : ℕ) :
    0 ∉ copied k lines := by
  induction lines generalizing k with
  | nil => exact List.not_mem_nil
  | cons line lines ih =>
    obtain ⟨hline,hlines⟩ := List.forall_mem_cons.mp h
    have hnl : 0 ∉ if k ≠ 0 then newline else [] := by split <;> decide
    simpa only [copied,List.mem_append,not_or] using
      ⟨⟨hnl,headerLine_free hline⟩,ih hlines (k+1)⟩

theorem tokens_copied {part : Text} {lines : List Text} (hpart : IsToken delimiter part)
    (hlines : ∀ line ∈ lines, IsToken delimiter line) :
    tokens delimiter (part ++ newline ++ copied 0 lines) = part::lines.map headerLine := by
  have htail : tokens delimiter (copied 0 lines) = lines.map headerLine := by
    rw [copied_zero]
    refine tokens_intercalate (by decide) fun t ht => ?_
    obtain ⟨line,hl,rfl⟩ := List.mem_map.mp ht
    exact headerLine_isToken (hlines line hl)
  rw [List.append_assoc,tokens_front hpart (by simp [newline,bytes,delimiter])]
  exact congrArg _ htail

theorem parsed_headerLine (part : Text) (lines : List Text) :
    parsed part (lines.map headerLine) = parsed part lines := by
  simp [parsed,Function.comp_def,headerName_headerLine,headerValue_headerLine]

/-- Every entry of the arrays is written. The headers rebuilt fit their buffer, and with the
status line in front of them read as the block they come from. -/
theorem header_round_trip (headers : CString) :
    (∀ k < (hpParseHeaders (some headers.text)).cnt,
      (entry (hpParseHeaders (some headers.text)).name k).isSome ∧
      (entry (hpParseHeaders (some headers.text)).value k).isSome) ∧
    ((∃ c ∈ headers.text, c ∉ delimiter) → ∃ statusLine buffer rebuilt,
      (hpParseHeaders (some headers.text)).statusLine = some statusLine ∧
      reconstructHeaders (hpParseHeaders (some headers.text)) = some buffer ∧
      readString buffer = some rebuilt ∧
      hpParseHeaders (some (statusLine ++ newline ++ rebuilt)) =
        hpParseHeaders (some headers.text)) := by
  cases ht : tokens delimiter headers.text with
  | nil =>
    refine ⟨fun k hk => ?_,fun h => absurd ht (tokens_ne_nil h)⟩
    rw [hpParseHeaders_empty ht] at hk
    exact absurd hk (Nat.not_lt_zero k)
  | cons part parts =>
    have htokens := @tokens_isToken delimiter headers.text
    have hsub := @tokens_subset delimiter headers.text
    rw [ht] at htokens hsub
    rw [hpParseHeaders_eq ht]
    have hlines : ∀ line ∈ parts.take (parts.length % 2^32), line ∈ part::parts :=
      fun line hl => List.mem_cons_of_mem part (List.mem_of_mem_take hl)
    have hlt : (parts.take (parts.length % 2^32)).length < 2^32 := by
      rw [List.length_take]
      exact Nat.lt_of_le_of_lt (Nat.min_le_left ..) (Nat.mod_lt _ (by decide))
    generalize parts.take (parts.length % 2^32) = lines at hlines hlt
    refine ⟨fun k hk => ?_,fun _ => ?_⟩
    · have hk : k < lines.length := hk
      simp [entry,parsed,hk]
    · obtain ⟨m,hm⟩ := reconstructHeaders_parsed part lines
      have hfree : 0 ∉ copied 0 lines := copied_free (fun line hl h0 =>
        headers.free (hsub line (hlines line hl) h0)) 0
      refine ⟨part,_,copied 0 lines,rfl,hm,readString_written hfree _,?_⟩
      rw [hpParseHeaders_eq (tokens_copied (htokens part List.mem_cons_self)
        fun line hl => htokens line (hlines line hl)),List.length_map,Nat.mod_eq_of_lt hlt,
        List.take_of_length_le (by simp)]
      exact parsed_headerLine part lines

/-- Without a colon, without a name, with blanks before a value, and with lines left empty. -/
def redirect : CString :=
  ⟨bytes "HTTP/1.0 301 Moved\r\n\r\nLocation: \t http://a/\r\n:\r\nbare\n",by decide⟩

theorem redirect_round_trip : ∃ statusLine buffer rebuilt,
    (hpParseHeaders (some redirect.text)).statusLine = some statusLine ∧
    reconstructHeaders (hpParseHeaders (some redirect.text)) = some buffer ∧
    readString buffer = some rebuilt ∧
    hpParseHeaders (some (statusLine ++ newline ++ rebuilt)) =
      hpParseHeaders (some redirect.text) :=
  (header_round_trip redirect).2 ⟨72,by decide,by decide⟩

end HeaderParser
end FreshPlayer
