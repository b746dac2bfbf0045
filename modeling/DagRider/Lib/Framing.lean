import Mathlib.Data.List.Basic
import Mathlib.Data.List.Infix

set_option relaxedAutoImplicit false
set_option autoImplicit false

/-!
# Delimited messages on a stream

A stream of symbols that arrives in chunks, and a reader that takes one message at a time up
to and including a delimiter. Which messages it takes depends on the stream only, not on how
it is cut into chunks.

## Main definitions

* `Framing.split` — the segments of a stream, each with its delimiter, and the remainder.
* `Framing.IsSplit` — what makes a list of segments and a remainder the ones of a stream.
* `Framing.Taken` — some segments of a stream were taken, and some data was not.
* `Framing.readUntil` — read chunks into a buffer until it holds a delimiter.
* `Framing.serve` — take messages and hand each to a handler, until the stream ends or the
  handler fails.

## Main results

* `Framing.split_of_notMem`, `Framing.split_append_cons`, `Framing.infix_of_mem_split` — how a
  stream splits.
* `Framing.isSplit_iff` — a stream splits in one way only.
* `Framing.Taken.split_eq` — what was taken comes first among the segments of the stream.
* `Framing.infix_of_notMem` — what has no delimiter lies within one segment.
* `Framing.serve_eq` — the reader hands over the segments of the stream, in order.
-/

namespace Framing

variable {α σ : Type*}

/-! ## Handing over messages -/

/-- Hand over messages until the handler fails. -/
def dispatchAll (dispatch : σ → List α → Option σ) : σ → List (List α) → σ
  | s, [] => s
  | s, m :: ms =>
    match dispatch s m with
    | none => s
    | some s' => dispatchAll dispatch s' ms

/-- A handler that never fails is handed everything. -/
lemma dispatchAll_some (f : σ → List α → σ) (s : σ) (ms : List (List α)) :
    dispatchAll (fun s m => some (f s m)) s ms = ms.foldl f s := by
  induction ms generalizing s with
  | nil => rfl
  | cons m ms ih => exact ih (f s m)

/-! ## Segments -/

variable [DecidableEq α] {delim : α}

/-- The segments of a stream that end in the delimiter, and what comes after the last one. -/
def split (delim : α) : List α → List (List α) × List α
  | [] => ([], [])
  | a :: l =>
    if a = delim then ([a] :: (split delim l).1, (split delim l).2)
    else match split delim l with
      | ([], rest) => ([], a :: rest)
      | (segment :: segments, rest) => ((a :: segment) :: segments, rest)

/-- A stream without a delimiter has no segments. -/
lemma split_of_notMem {l : List α} (h : delim ∉ l) : split delim l = ([], l) := by
  induction l with
  | nil => rfl
  | cons a l ih =>
    rw [List.mem_cons, not_or] at h
    obtain ⟨ha, hl⟩ := h
    rw [split, if_neg (Ne.symm ha), ih hl]

/-- The first segment of a stream ends at its first delimiter. -/
lemma split_append_cons {s l : List α} (h : delim ∉ s) :
    split delim (s ++ delim :: l) =
      ((s ++ [delim]) :: (split delim l).1, (split delim l).2) := by
  induction s with
  | nil => rw [List.nil_append, split, if_pos rfl, List.nil_append]
  | cons a s ih =>
    rw [List.mem_cons, not_or] at h
    obtain ⟨ha, hs⟩ := h
    rw [List.cons_append, split, if_neg (Ne.symm ha), ih hs]
    rfl

/-- A stream is its segments and the remainder. -/
lemma flatten_split (l : List α) : (split delim l).1.flatten ++ (split delim l).2 = l := by
  induction l with
  | nil => rfl
  | cons a l ih =>
    rw [split]
    split_ifs with ha
    · simp [ih]
    · cases hl : split delim l with
      | mk segments rest =>
        rw [hl] at ih
        cases segments with
        | nil => simpa using ih
        | cons segment segments => simpa using ih

/-- A stream cut into segments that end in their one delimiter, and a remainder without any. -/
structure IsSplit (delim : α) (stream : List α) (segments : List (List α)) (rest : List α) :
    Prop where
  stream_eq : stream = segments.flatten ++ rest
  segment : ∀ m ∈ segments, ∃ s, delim ∉ s ∧ m = s ++ [delim]
  rest : delim ∉ rest

/-- **A stream splits in one way only**, into the segments and the remainder of `split`.

**Proof sketch.** Induction on the segments: the first one ends at the first delimiter of the
stream. -/
theorem isSplit_iff {stream rest : List α} {segments : List (List α)} :
    IsSplit delim stream segments rest ↔ split delim stream = (segments, rest) := by
  constructor
  · rintro ⟨rfl, hsegments, hrest⟩
    induction segments with
    | nil => exact split_of_notMem hrest
    | cons m segments ih =>
      obtain ⟨s, hs, rfl⟩ := hsegments m List.mem_cons_self
      have hstream : ((s ++ [delim]) :: segments).flatten ++ rest =
          s ++ delim :: (segments.flatten ++ rest) := by simp
      rw [hstream, split_append_cons hs, ih fun m hm => hsegments m (List.mem_cons_of_mem _ hm)]
  · intro h
    induction hn : stream.length using Nat.strong_induction_on generalizing stream segments with
    | _ n ih =>
      by_cases hmem : delim ∈ stream
      · obtain ⟨s, t, rfl, hs⟩ := List.eq_append_cons_of_mem hmem
        rw [split_append_cons hs, Prod.mk.injEq] at h
        obtain ⟨rfl, rfl⟩ := h
        have ht : t.length < n := by
          rw [← hn, List.length_append, List.length_cons]
          omega
        have hsplit : IsSplit delim t (split delim t).1 (split delim t).2 := ih t.length ht rfl rfl
        obtain ⟨hstream, hsegments, hrest⟩ := hsplit
        refine ⟨?_, ?_, hrest⟩
        · rw [List.flatten_cons, List.append_assoc, List.append_assoc, ← hstream]
          rfl
        · intro m hm
          rcases List.mem_cons.mp hm with rfl | hm
          · exact ⟨s, hs, rfl⟩
          · exact hsegments m hm
      · rw [split_of_notMem hmem, Prod.mk.injEq] at h
        obtain ⟨rfl, rfl⟩ := h
        exact ⟨rfl, fun m hm => absurd hm List.not_mem_nil, hmem⟩

/-- A segment lies within the stream. -/
lemma infix_of_mem_split {l segment : List α} (h : segment ∈ (split delim l).1) :
    segment <:+: l := by
  have hinfix := List.infix_of_mem_flatten h
  rw [← flatten_split l]
  exact hinfix.trans (List.prefix_append _ _).isInfix

omit [DecidableEq α] in
/-- What has no delimiter and lies within a stream lies before the first delimiter or after
it. -/
lemma infix_of_notMem {l xs ys : List α} (hl : delim ∉ l) (h : l <:+: xs ++ delim :: ys) :
    l <:+: xs ∨ l <:+: ys := by
  -- a beginning of what comes from the delimiter on is empty
  have hempty : ∀ m, m <+: delim :: ys → delim ∉ m → m = [] := by
    intro m hm hmem
    cases m with
    | nil => rfl
    | cons a m =>
      obtain ⟨rfl, -⟩ := List.cons_prefix_cons.mp hm
      exact absurd List.mem_cons_self hmem
  rcases List.infix_append_iff.mp h with h | h | ⟨l₁, l₂, rfl, h₁, h₂⟩
  · exact Or.inl h
  · rcases List.infix_cons_iff.mp h with h | h
    · rw [hempty l h hl]
      exact Or.inl List.nil_infix
    · exact Or.inr h
  · rw [List.mem_append, not_or] at hl
    rw [hempty l₂ h₂ hl.2, List.append_nil]
    exact Or.inl h₁.isInfix

/-! ## Reading one message -/

/-- Append chunks to the buffer until it holds a delimiter; the number of symbols up to and
including the first one, with the buffer and the chunks left. -/
def readUntil (delim : α) (data : List α) : List (List α) → Option (ℕ × List α × List (List α))
  | [] => if delim ∈ data then some (data.idxOf delim + 1, data, []) else none
  | chunk :: chunks =>
    if delim ∈ data then some (data.idxOf delim + 1, data, chunk :: chunks)
    else readUntil delim (data ++ chunk) chunks

/-- A buffer with a delimiter, cut before the first one. -/
lemma exists_split_of_mem {data : List α} (h : delim ∈ data) :
    ∃ s rest, delim ∉ s ∧ data = s ++ delim :: rest ∧ data.idxOf delim + 1 = s.length + 1 := by
  obtain ⟨s, rest, rfl, hs⟩ := List.eq_append_cons_of_mem h
  refine ⟨s, rest, hs, rfl, ?_⟩
  rw [List.idxOf_append_of_notMem hs, List.idxOf_cons_self]

/-- **What a read returns**: a buffer that starts with one whole message, and nothing of the
stream lost. -/
lemma readUntil_eq_some {data : List α} {chunks : List (List α)} {n : ℕ} {data' : List α}
    {chunks' : List (List α)} (h : readUntil delim data chunks = some (n, data', chunks')) :
    ∃ s rest, delim ∉ s ∧ data' = s ++ delim :: rest ∧ n = s.length + 1 ∧
      data' ++ chunks'.flatten = data ++ chunks.flatten := by
  induction chunks generalizing data with
  | nil =>
    rw [readUntil] at h
    split_ifs at h with hmem
    obtain ⟨rfl, rfl, rfl⟩ := h
    obtain ⟨s, rest, hs, hdata, hn⟩ := exists_split_of_mem hmem
    exact ⟨s, rest, hs, hdata, hn, rfl⟩
  | cons chunk chunks ih =>
    rw [readUntil] at h
    split_ifs at h with hmem
    · obtain ⟨rfl, rfl, rfl⟩ := h
      obtain ⟨s, rest, hs, hdata, hn⟩ := exists_split_of_mem hmem
      exact ⟨s, rest, hs, hdata, hn, rfl⟩
    · obtain ⟨s, rest, hs, hdata, hn, hstream⟩ := ih h
      refine ⟨s, rest, hs, hdata, hn, ?_⟩
      rw [hstream, List.flatten_cons, List.append_assoc]

/-- A read fails at the end of a stream without a delimiter. -/
lemma readUntil_eq_none {data : List α} {chunks : List (List α)}
    (h : readUntil delim data chunks = none) : delim ∉ data ++ chunks.flatten := by
  induction chunks generalizing data with
  | nil =>
    rw [readUntil] at h
    split_ifs at h with hmem
    simpa using hmem
  | cons chunk chunks ih =>
    rw [readUntil] at h
    split_ifs at h with hmem
    rw [List.flatten_cons, ← List.append_assoc]
    exact ih h

/-! ## A stream of which some was taken -/

/-- Some segments of a stream were taken, each with its one delimiter, and some data is left. -/
structure Taken (delim : α) (stream : List α) (segments : List (List α)) (data : List α) :
    Prop where
  stream_eq : stream = segments.flatten ++ data
  segment : ∀ m ∈ segments, ∃ s, delim ∉ s ∧ m = s ++ [delim]

namespace Taken

variable {stream data : List α} {segments : List (List α)}

omit [DecidableEq α] in
/-- Nothing was taken of an empty stream. -/
lemma nil : Taken delim [] [] [] := ⟨rfl, by simp⟩

omit [DecidableEq α] in
/-- More of the stream arrives. -/
lemma read (h : Taken delim stream segments data) (chunk : List α) :
    Taken delim (stream ++ chunk) segments (data ++ chunk) :=
  ⟨by rw [h.stream_eq, List.append_assoc], h.segment⟩

/-- The next segment is taken. -/
lemma take (h : Taken delim stream segments data) (hmem : delim ∈ data) :
    Taken delim stream (segments ++ [data.take (data.idxOf delim + 1)])
      (data.drop (data.idxOf delim + 1)) := by
  refine ⟨by simp [h.stream_eq], fun m hm => ?_⟩
  rcases List.mem_append.mp hm with hm | hm
  · exact h.segment m hm
  · obtain ⟨s, rest, hs, hdata, hn⟩ := exists_split_of_mem hmem
    refine ⟨s, hs, ?_⟩
    rw [List.mem_singleton.mp hm, hn, hdata, List.take_length_add_append]
    rfl

/-- **What was taken comes first** among the segments of the stream; then come those of the data
that is left. -/
lemma split_eq (h : Taken delim stream segments data) :
    split delim stream = (segments ++ (split delim data).1, (split delim data).2) := by
  obtain ⟨hdata, hsegment, hrest⟩ :=
    isSplit_iff.mpr (show split delim data = ((split delim data).1, (split delim data).2) from rfl)
  refine isSplit_iff.mp ⟨?_, fun m hm => ?_, hrest⟩
  · rw [h.stream_eq, List.flatten_append, List.append_assoc, ← hdata]
  · rcases List.mem_append.mp hm with hm | hm
    · exact h.segment m hm
    · exact hsegment m hm

end Taken

/-- A beginning of a stream has the first of its segments. -/
lemma split_prefix {l l' : List α} (h : l <+: l') : (split delim l).1 <+: (split delim l').1 := by
  obtain ⟨chunk, rfl⟩ := h
  obtain ⟨hstream, hsegment, -⟩ :=
    isSplit_iff.mpr (show split delim l = ((split delim l).1, (split delim l).2) from rfl)
  have htaken : Taken delim l (split delim l).1 (split delim l).2 := ⟨hstream, hsegment⟩
  rw [(htaken.read chunk).split_eq]
  exact List.prefix_append _ _

/-! ## Serving a connection -/

/-- Take one message after the other and hand each to the handler. The loop ends when the
stream does, or when the handler fails (`none`). -/
def serve (delim : α) (dispatch : σ → List α → Option σ) (s : σ) (data : List α)
    (chunks : List (List α)) : σ :=
  match _h : readUntil delim data chunks with
  | none => s
  | some (n, data', chunks') =>
    match dispatch s (data'.take n) with
    | none => s
    | some s' => serve delim dispatch s' (data'.drop n) chunks'
termination_by data.length + chunks.flatten.length
decreasing_by
  obtain ⟨m, rest, -, hdata, hn, hstream⟩ := readUntil_eq_some _h
  have hlen := congrArg List.length hstream
  rw [List.length_append, List.length_append] at hlen
  rw [List.length_drop, ← hlen, hn, hdata, List.length_append, List.length_cons]
  omega

/-- **The reader hands over the segments of the stream, in order**, however the stream is cut
into chunks.

**Proof sketch.** Induction over the loop. A read takes the first segment of what is left of the
stream (`readUntil_eq_some`, `split_append_cons`), or fails when there is none
(`readUntil_eq_none`, `split_of_notMem`). -/
theorem serve_eq (dispatch : σ → List α → Option σ) (s : σ) (data : List α)
    (chunks : List (List α)) :
    serve delim dispatch s data chunks =
      dispatchAll dispatch s (split delim (data ++ chunks.flatten)).1 := by
  induction s, data, chunks using serve.induct delim dispatch with
  | case1 s data chunks h =>
    rw [serve, h, split_of_notMem (readUntil_eq_none h)]
    rfl
  | case2 s data chunks n data' chunks' h hfail =>
    obtain ⟨m, rest, hm, hdata, hn, hstream⟩ := readUntil_eq_some h
    have htake : data'.take n = m ++ [delim] := by
      rw [hdata, hn, List.take_length_add_append]
      rfl
    rw [serve, h, ← hstream, hdata, List.append_assoc, List.cons_append, split_append_cons hm]
    rw [htake] at hfail
    simp [dispatchAll, hfail, htake, ← hdata]
  | case3 s data chunks n data' chunks' h s' hok ih =>
    obtain ⟨m, rest, hm, hdata, hn, hstream⟩ := readUntil_eq_some h
    have htake : data'.take n = m ++ [delim] := by
      rw [hdata, hn, List.take_length_add_append]
      rfl
    have hdrop : data'.drop n = rest := by
      rw [hdata, hn, List.drop_length_add_append]
      rfl
    rw [serve, h, ← hstream, hdata, List.append_assoc, List.cons_append, split_append_cons hm]
    rw [htake] at hok
    rw [hdrop] at ih
    simp [dispatchAll, hok, htake, ← hdata, ih, hdrop]

end Framing
