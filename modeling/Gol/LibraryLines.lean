import Mathlib.Data.Seq.Basic

/-! Lines of a stream that may never end. A line ends before a separator, or where the stream does. A stream comes in
chunks, and how it is split into them says nothing about its lines. -/

namespace Gol.Library
open Stream' (Seq Seq1)

variable {α : Type} {separator : α} {cap : Nat} {item : α} {items line : List α} {stream behind : Seq α}

/-- The stream of some items and what is behind them. -/
def onto (items : List α) (behind : Seq α) : Seq α := items.foldr Seq.cons behind

@[simp]
theorem onto_nil : onto [] behind = behind := rfl

@[simp]
theorem onto_cons : onto (item :: items) behind = .cons item (onto items behind) := rfl

theorem onto_append {more : List α} : onto (items ++ more) behind = onto items (onto more behind) := List.foldr_append

theorem onto_ne_nil (h : items ≠ []) : onto items behind ≠ .nil := by
  cases items with
  | nil => exact absurd rfl h
  | cons item items => exact Seq.cons_ne_nil

/-! ### Chunks -/

/-- Items that are read at once. -/
abbrev Chunk (α : Type) : Type := { items : List α // items ≠ [] }

def Chunk.toSeq (chunk : Chunk α) : Seq1 α := (chunk.1.head chunk.2, Seq.ofList chunk.1.tail)

/-- The stream that chunks make one after the other. -/
def streamOf (chunks : Seq (Chunk α)) : Seq α := Seq.join (chunks.map Chunk.toSeq)

@[simp]
theorem streamOf_nil : streamOf (α := α) .nil = .nil := by
  rw [streamOf, Seq.map_nil, Seq.join_nil]

theorem append_ofList : Seq.append (Seq.ofList items) behind = onto items behind := by
  induction items with
  | nil => exact Seq.nil_append behind
  | cons item items ih => rw [Seq.ofList_cons, Seq.cons_append, ih, onto_cons]

@[simp]
theorem streamOf_cons {chunk : Chunk α} {chunks : Seq (Chunk α)} :
    streamOf (.cons chunk chunks) = onto chunk.1 (streamOf chunks) := by
  obtain ⟨items, hitems⟩ := chunk
  cases items with
  | nil => exact absurd rfl hitems
  | cons item items =>
      rw [streamOf, Seq.map_cons, Chunk.toSeq, Seq.join_cons]
      show Seq.cons item (Seq.append (Seq.ofList items) (streamOf chunks)) = _
      rw [append_ofList, onto_cons]

/-! ### Lines -/

/-- What `count` reads of a stream give: its lines one after the other, then that it has ended. The first line with
more than `cap` items gives `long`, and nothing is read behind it. -/
inductive Lines {ε : Type} (separator : α) (cap : Nat) (long : ε) :
    Nat → Seq α → List (Except ε (Option (List α))) → Prop
  | unread (stream : Seq α) : Lines separator cap long 0 stream []
  | line {count : Nat} {line : List α} {behind : Seq α} {answers : List (Except ε (Option (List α)))}
      (hline : separator ∉ line)
      (hcap : line.length ≤ cap) (h : Lines separator cap long count behind answers) :
      Lines separator cap long (count + 1) (onto line (.cons separator behind)) (.ok (some line) :: answers)
  | last {count : Nat} {line : List α} {answers : List (Except ε (Option (List α)))} (hline : separator ∉ line)
      (hcap : line.length ≤ cap) (hsome : line ≠ []) (h : Lines separator cap long count .nil answers) :
      Lines separator cap long (count + 1) (onto line .nil) (.ok (some line) :: answers)
  | ended {count : Nat} {answers : List (Except ε (Option (List α)))}
      (h : Lines separator cap long count .nil answers) :
      Lines separator cap long (count + 1) .nil (.ok none :: answers)
  | long {count : Nat} {line : List α} {behind : Seq α} (hline : separator ∉ line) (hcap : cap < line.length) :
      Lines separator cap long (count + 1) (onto line behind) [.error long]

variable [DecidableEq α]

/-- The line at the front of a stream, if it has at most `cap` items, and what is left behind its separator. -/
def cut (separator : α) (cap : Nat) (stream : Seq α) : Option (List α × Seq α) :=
  match stream.destruct with
  | none => some ([], .nil)
  | some (item, behind) =>
      if item = separator then some ([], behind)
      else match cap with
        | 0 => none
        | cap + 1 => (cut separator cap behind).map fun found => (item :: found.1, found.2)

@[simp]
theorem cut_nil : cut separator cap .nil = some ([], .nil) := by
  rw [cut, Seq.destruct_nil]

@[simp]
theorem cut_separator : cut separator cap (.cons separator behind) = some ([], behind) := by
  rw [cut, Seq.destruct_cons]
  exact if_pos rfl

theorem cut_zero (h : item ≠ separator) : cut separator 0 (.cons item behind) = none := by
  rw [cut, Seq.destruct_cons]
  exact if_neg h

theorem cut_succ (h : item ≠ separator) :
    cut separator (cap + 1) (.cons item behind) = (cut separator cap behind).map fun found =>
      (item :: found.1, found.2) := by
  rw [cut, Seq.destruct_cons]
  exact if_neg h

/-- Items without a separator are the front of the line. -/
theorem cut_onto (h : separator ∉ items) : cut separator cap (onto items behind) =
    if cap < items.length then none
    else (cut separator (cap - items.length) behind).map fun found => (items ++ found.1, found.2) := by
  induction items generalizing cap with
  | nil =>
      rw [onto_nil, List.length_nil, if_neg (Nat.not_lt_zero cap), Nat.sub_zero]
      cases cut separator cap behind <;> rfl
  | cons item items ih =>
      obtain ⟨hitem, hitems⟩ := not_or.mp (mt List.mem_cons.mpr h)
      rw [onto_cons, List.length_cons]
      cases cap with
      | zero => rw [cut_zero (Ne.symm hitem), if_pos (Nat.succ_pos _)]
      | succ cap =>
          rw [cut_succ (Ne.symm hitem), ih hitems]
          by_cases hlong : cap < items.length
          · rw [if_pos hlong, if_pos (Nat.succ_lt_succ hlong)]
            rfl
          · rw [if_neg hlong, if_neg (fun hless => hlong (Nat.lt_of_succ_lt_succ hless)), Option.map_map,
              Nat.add_sub_add_right]
            rfl

/-- A separator ends the line, if it is not too long by then. -/
theorem cut_line (h : separator ∉ line) : cut separator cap (onto line (.cons separator behind)) =
    if cap < line.length then none else some (line, behind) := by
  rw [cut_onto h, cut_separator]
  split
  · rfl
  · rw [Option.map_some, List.append_nil]

/-- What a stream starts with: a line, an end, or more items than a line may have. -/
theorem cut_cases (separator : α) (cap : Nat) (stream : Seq α) :
    match cut separator cap stream with
    | some (line, behind) =>
        separator ∉ line ∧ line.length ≤ cap ∧
          (stream = onto line (.cons separator behind) ∨ stream = onto line .nil ∧ behind = .nil)
    | none => ∃ line behind, separator ∉ line ∧ cap < line.length ∧ stream = onto line behind := by
  induction cap generalizing stream with
  | zero =>
      cases stream using Stream'.Seq.recOn with
      | nil =>
          rw [cut_nil]
          exact ⟨List.not_mem_nil, Nat.le_refl 0, .inr ⟨rfl, rfl⟩⟩
      | cons item behind =>
          by_cases hitem : item = separator
          · subst hitem
            rw [cut_separator]
            exact ⟨List.not_mem_nil, Nat.le_refl 0, .inl rfl⟩
          · rw [cut_zero hitem]
            exact ⟨[item], behind, fun hmem => hitem (List.mem_singleton.mp hmem).symm, Nat.one_pos, rfl⟩
  | succ cap ih =>
      cases stream using Stream'.Seq.recOn with
      | nil =>
          rw [cut_nil]
          exact ⟨List.not_mem_nil, Nat.zero_le _, .inr ⟨rfl, rfl⟩⟩
      | cons item behind =>
          by_cases hitem : item = separator
          · subst hitem
            rw [cut_separator]
            exact ⟨List.not_mem_nil, Nat.zero_le _, .inl rfl⟩
          · rw [cut_succ hitem]
            have hrest := ih behind
            cases hcut : cut separator cap behind with
            | none =>
                rw [hcut] at hrest
                obtain ⟨line, after, hline, hcap, rfl⟩ := hrest
                exact ⟨item :: line, after, List.not_mem_cons_of_ne_of_not_mem (Ne.symm hitem) hline,
                  Nat.succ_lt_succ hcap, rfl⟩
            | some found =>
                rw [hcut] at hrest
                obtain ⟨hline, hcap, hstream⟩ := hrest
                refine ⟨List.not_mem_cons_of_ne_of_not_mem (Ne.symm hitem) hline, Nat.succ_le_succ hcap, ?_⟩
                rcases hstream with rfl | ⟨rfl, hend⟩
                · exact .inl rfl
                · exact .inr ⟨rfl, hend⟩

end Gol.Library
