import Gol.LibraryLines
import Gol.LibraryLoops
import Gol.LibraryText

/-! The capped line reader of an MCP server's output (`crates/harness/src/catalog.rs`): one line is read chunk by
chunk, and no more of it is held than a line may have. -/

namespace Gol

namespace Mcp
open Library
open Stream' (Seq)

/-- `bytes` in words: whole mebibytes as MiB, anything else in bytes. -/
def size (bytes : Nat) : String :=
  let mib := 1024 * 1024
  if mib ≤ bytes ∧ mib ∣ bytes then s!"{bytes / mib} MiB" else s!"{bytes} bytes"

def tooLong (cap : Nat) : String := s!"line over {size cap}"

def newline : UInt8 := 10

/-- A `BufRead`: the bytes in its buffer, and what reads ahead of them will give. Where the reads end, the input does.
-/
structure Reader where
  buffer : Bytes
  ahead : Seq (Except String (Chunk UInt8))

namespace Reader

/-- A reader of a stream that comes in these chunks. -/
def of (chunks : Seq (Chunk UInt8)) : Reader := ⟨[], chunks.map .ok⟩

def fillBuf (reader : Reader) : Except String Bytes × Reader :=
  if reader.buffer ≠ [] then (.ok reader.buffer, reader)
  else match reader.ahead.destruct with
    | none => (.ok [], reader)
    | some (.ok chunk, ahead) => (.ok chunk.1, ⟨chunk.1, ahead⟩)
    | some (.error error, ahead) => (.error error, ⟨[], ahead⟩)

def consume (bytes : Nat) (reader : Reader) : Reader := { reader with buffer := reader.buffer.drop bytes }

end Reader

/-- One turn of the loop, which holds `line` of the line that it reads. -/
def lineTurn (cap : Nat) (line : Bytes) (reader : Reader) :
    LoopTurn (Bytes × Reader) (Except String (Option Bytes) × Reader) :=
  match reader.fillBuf with
  | (.error error, reader) => .done (.error error, reader)
  | (.ok available, reader) =>
      if available.isEmpty then .done (.ok (if line.isEmpty then none else some line), reader)
      else match available.findIdx? (· == newline) with
        | some stop =>
            if line.length + stop > cap then .done (.error (tooLong cap), reader)
            else .done (.ok (some (line ++ available.take stop)), reader.consume (stop + 1))
        | none =>
            let taken := available.length
            if line.length + taken > cap then .done (.error (tooLong cap), reader)
            else .again (line ++ available, reader.consume taken)

/-- A turn that is not the last takes some bytes, and holds no more than a line may have. -/
theorem lineTurn_again {cap : Nat} {line longer : Bytes} {reader next : Reader}
    (h : lineTurn cap line reader = .again (longer, next)) :
    line.length < longer.length ∧ longer.length ≤ cap := by
  rw [lineTurn] at h
  split at h
  · cases h
  · rename_i available reader _
    split at h
    · cases h
    · rename_i hsome
      split at h
      · split at h <;> cases h
      · dsimp only at h
        split at h
        · cases h
        · rename_i hcap
          cases h
          have hpos : 0 < available.length := List.length_pos_iff.mpr fun hnone => hsome (hnone ▸ rfl)
          rw [List.length_append]
          omega

/-- The rest of a line of which `line` is held. -/
def readLine (cap : Nat) (line : Bytes) (reader : Reader) : Except String (Option Bytes) × Reader :=
  match _h : lineTurn cap line reader with
  | .again (longer, next) => readLine cap longer next
  | .done answer => answer
  termination_by cap - line.length
  decreasing_by
    have hlonger := lineTurn_again _h
    omega

def readCappedLine (cap : Nat) (reader : Reader) : Except String (Option Bytes) × Reader := readLine cap [] reader

/-- The answers of this many reads, one after the other. Nothing is read behind an error. -/
def readLines (cap : Nat) : Nat → Reader → List (Except String (Option Bytes))
  | 0, _ => []
  | count + 1, reader =>
      match readCappedLine cap reader with
      | (.error error, _) => [.error error]
      | (.ok line, reader) => .ok line :: readLines cap count reader

/-- While a reader's line is read, `line` is held of it. -/
inductive Held (cap : Nat) : Bytes → Reader → Prop
  | start (reader : Reader) : Held cap [] reader
  | more {line longer : Bytes} {reader next : Reader} (h : Held cap line reader)
      (hturn : lineTurn cap line reader = .again (longer, next)) :
      Held cap longer next
  | last {line whole : Bytes} {reader next : Reader} (h : Held cap line reader)
      (hturn : lineTurn cap line reader = .done (.ok (some whole), next)) : Held cap whole next

/-! ### What a line's reads take -/

variable {cap : Nat} {line available : Bytes} {reader next : Reader} {stream rest : Seq UInt8}

theorem Held.length_le (h : Held cap line reader) : line.length ≤ cap := by
  induction h with
  | start reader => exact Nat.zero_le cap
  | more h hturn ih => exact (lineTurn_again hturn).2
  | @last line whole reader next h hturn ih =>
      rw [lineTurn] at hturn
      split at hturn
      · cases hturn
      · rename_i available filled _
        split at hturn
        · split at hturn
          · cases hturn
          · cases hturn
            exact ih
        · split at hturn
          · rename_i stop hstop
            split at hturn
            · cases hturn
            · rename_i hcap
              cases hturn
              rw [List.length_append, List.length_take]
              omega
          · dsimp only at hturn
            split at hturn <;> cases hturn

/-- The reader will give `stream`, and no error. -/
def Reader.Gives (reader : Reader) (stream : Seq UInt8) : Prop :=
  ∃ chunks : Seq (Chunk UInt8), reader.ahead = chunks.map .ok ∧ stream = onto reader.buffer (streamOf chunks)

theorem Reader.gives_of (chunks : Seq (Chunk UInt8)) : (Reader.of chunks).Gives (streamOf chunks) := ⟨chunks, rfl, rfl⟩

/-- At the stream's end there is nothing to read, and before it the front of what is left. -/
theorem Reader.Gives.fillBuf (h : reader.Gives stream) :
    (stream = .nil ∧ ∃ filled : Reader, reader.fillBuf = (.ok [], filled) ∧ filled.Gives .nil) ∨
      ∃ (available : Bytes) (rest : Seq UInt8) (filled : Reader), reader.fillBuf = (.ok available, filled) ∧
        available ≠ [] ∧
        stream = onto available rest ∧ ∀ taken left, available = taken ++ left →
          (filled.consume taken.length).Gives (onto left rest) := by
  obtain ⟨buffer, ahead⟩ := reader
  obtain ⟨chunks, hahead, rfl⟩ := h
  replace hahead : ahead = chunks.map .ok := hahead
  subst hahead
  by_cases hbuffer : buffer = []
  · subst hbuffer
    rw [Reader.fillBuf, if_neg (by simp)]
    cases chunks using Stream'.Seq.recOn with
    | nil =>
        refine .inl ⟨streamOf_nil, ⟨[], Stream'.Seq.nil⟩, ?_, .nil, (Stream'.Seq.map_nil _).symm, streamOf_nil.symm⟩
        rw [Stream'.Seq.map_nil, Stream'.Seq.destruct_nil]
    | cons chunk chunks =>
        refine .inr ⟨chunk.1, streamOf chunks, ⟨chunk.1, chunks.map .ok⟩, ?_, chunk.2, streamOf_cons,
          fun taken left hsplit => ?_⟩
        · rw [Stream'.Seq.map_cons, Stream'.Seq.destruct_cons]
        · refine ⟨chunks, rfl, ?_⟩
          show onto left (streamOf chunks) = onto (chunk.1.drop taken.length) (streamOf chunks)
          rw [hsplit, List.drop_left]
  · refine .inr ⟨buffer, streamOf chunks, ⟨buffer, chunks.map .ok⟩, if_pos hbuffer, hbuffer, rfl,
      fun taken left hsplit => ?_⟩
    refine ⟨chunks, rfl, ?_⟩
    show onto left (streamOf chunks) = onto (buffer.drop taken.length) (streamOf chunks)
    rw [hsplit, List.drop_left]

/-- The bytes before the newline that is found, and those behind it. -/
theorem split_of_findIdx? {stop : Nat} (h : available.findIdx? (· == newline) = some stop) :
    newline ∉ available.take stop ∧ stop < available.length ∧
      available = available.take stop ++ newline :: available.drop (stop + 1) := by
  obtain ⟨hstop, hfound, hbefore⟩ := List.findIdx?_eq_some_iff_getElem.mp h
  refine ⟨fun hmem => ?_, hstop, ?_⟩
  · obtain ⟨place, hplace, hsame⟩ := List.getElem_of_mem hmem
    rw [List.getElem_take] at hsame
    have hless : place < stop := by
      rw [List.length_take] at hplace
      omega
    exact hbefore place hless (beq_iff_eq.mpr hsame)
  · rw [← beq_iff_eq.mp hfound, ← List.drop_eq_getElem_cons hstop, List.take_append_drop]

theorem readLine_again (h : lineTurn cap line reader = .again (available, next)) :
    readLine cap line reader = readLine cap available next := by
  rw [readLine]
  split
  · rename_i hturn
    cases h.symm.trans hturn
    rfl
  · rename_i hturn
    cases h.symm.trans hturn

theorem readLine_done {answer : Except String (Option Bytes)} (h : lineTurn cap line reader = .done (answer, next)) :
    readLine cap line reader = (answer, next) := by
  rw [readLine]
  split
  · rename_i hturn
    cases h.symm.trans hturn
  · rename_i hturn
    cases h.symm.trans hturn
    rfl

/-- At the stream's end a read gives what it holds, if that is not empty. -/
theorem readLine_nil (h : reader.Gives .nil) (cap : Nat) (line : Bytes) :
    ∃ next, readLine cap line reader = (.ok (if line.isEmpty then none else some line), next) ∧ next.Gives .nil := by
  rcases h.fillBuf with ⟨-, filled, hfill, hgives⟩ | ⟨available, rest, -, -, hsome, hstream, -⟩
  · refine ⟨filled, readLine_done ?_, hgives⟩
    rw [lineTurn, hfill]
    rfl
  · exact absurd hstream.symm (onto_ne_nil hsome)

/-- Before the stream's end a read gives what it holds and what is left of the line, unless that is too long. -/
theorem readLine_cut (hline : line.length ≤ cap) (h : reader.Gives stream) (hsome : stream ≠ .nil) :
    match cut newline (cap - line.length) stream with
    | none => ∃ next, readLine cap line reader = (.error (tooLong cap), next)
    | some (more, behind) =>
        ∃ next, readLine cap line reader = (.ok (some (line ++ more)), next) ∧ next.Gives behind := by
  induction hroom : cap - line.length using Nat.strong_induction_on generalizing line reader stream with
  | _ room ih =>
      subst hroom
      rcases h.fillBuf with ⟨hnil, -⟩ | ⟨available, rest, filled, hfill, havailable, rfl, hleft⟩
      · exact absurd hnil hsome
      have hpos : 0 < available.length := List.length_pos_iff.mpr havailable
      have hturn : lineTurn cap line reader = match available.findIdx? (· == newline) with
          | some stop =>
              if line.length + stop > cap then .done (.error (tooLong cap), filled)
              else .done (.ok (some (line ++ available.take stop)), filled.consume (stop + 1))
          | none =>
              if line.length + available.length > cap then .done (.error (tooLong cap), filled)
              else .again (line ++ available, filled.consume available.length) := by
        rw [lineTurn, hfill]
        exact if_neg (by rw [List.isEmpty_iff]; exact havailable)
      cases hstop : available.findIdx? (· == newline) with
      | some stop =>
          obtain ⟨hbefore, hless, hsplit⟩ := split_of_findIdx? hstop
          have hlength : (available.take stop).length = stop := List.length_take_of_le hless.le
          have hcut : cut newline (cap - line.length) (onto available rest) =
              if cap - line.length < stop then none
              else some (available.take stop, onto (available.drop (stop + 1)) rest) := by
            conv_lhs => rw [hsplit, onto_append, onto_cons]
            rw [cut_line hbefore, hlength]
          rw [hstop] at hturn
          rw [hcut]
          by_cases hlong : line.length + stop > cap
          · rw [if_pos (by omega)]
            exact ⟨filled, readLine_done (hturn.trans (if_pos hlong))⟩
          · rw [if_neg (by omega)]
            refine ⟨_, readLine_done (hturn.trans (if_neg hlong)), ?_⟩
            have hgives := hleft (available.take stop ++ [newline]) (available.drop (stop + 1))
              (by rw [List.append_assoc, List.singleton_append]; exact hsplit)
            rwa [List.length_append, hlength] at hgives
      | none =>
          have hnone : newline ∉ available := fun hmem =>
            absurd (List.findIdx?_eq_none_iff.mp hstop newline hmem) (by decide)
          rw [hstop] at hturn
          rw [cut_onto hnone]
          by_cases hlong : line.length + available.length > cap
          · rw [if_pos (by omega)]
            exact ⟨filled, readLine_done (hturn.trans (if_pos hlong))⟩
          · rw [if_neg (by omega)]
            have hagain := readLine_again (hturn.trans (if_neg hlong))
            have hgives : (filled.consume available.length).Gives rest :=
              hleft available [] (List.append_nil available).symm
            have hlonger : (line ++ available).length ≤ cap := by
              rw [List.length_append]
              omega
            by_cases hrest : rest = .nil
            · subst hrest
              obtain ⟨next, hread, hnext⟩ := readLine_nil hgives cap (line ++ available)
              rw [cut_nil]
              refine ⟨next, ?_, hnext⟩
              rw [hagain, hread, if_neg
                (by rw [List.isEmpty_iff]; exact List.append_ne_nil_of_right_ne_nil line havailable), List.append_nil]
            · have hread := ih (cap - (line ++ available).length)
                (by rw [List.length_append]; omega) hlonger hgives hrest rfl
              rw [List.length_append, ← Nat.sub_sub] at hread
              cases hcut : cut newline (cap - line.length - available.length) rest with
              | none =>
                  rw [hcut] at hread
                  obtain ⟨next, hread⟩ := hread
                  exact ⟨next, hagain.trans hread⟩
              | some found =>
                  obtain ⟨more, behind⟩ := found
                  rw [hcut] at hread
                  obtain ⟨next, hread, hnext⟩ := hread
                  refine ⟨next, ?_, hnext⟩
                  rw [hagain, hread, List.append_assoc]

/-! ### All the reads -/

/-- The answers are the stream's lines. -/
theorem readLines_lines (count : Nat) (h : reader.Gives stream) :
    Lines newline cap (tooLong cap) count stream (readLines cap count reader) := by
  induction count generalizing reader stream with
  | zero => exact .unread stream
  | succ count ih =>
      rw [readLines, readCappedLine]
      by_cases hstream : stream = .nil
      · subst hstream
        obtain ⟨next, hread, hnext⟩ := readLine_nil h cap []
        rw [hread]
        exact .ended (ih hnext)
      · have hempty : ([] : Bytes).length ≤ cap := Nat.zero_le cap
        have hread := readLine_cut hempty h hstream
        have hcases := cut_cases newline cap stream
        rw [List.length_nil, Nat.sub_zero] at hread
        cases hcut : cut newline cap stream with
        | none =>
            rw [hcut] at hread hcases
            obtain ⟨next, hread⟩ := hread
            obtain ⟨line, behind, hline, hcap, rfl⟩ := hcases
            rw [hread]
            exact .long hline hcap
        | some found =>
            obtain ⟨line, behind⟩ := found
            rw [hcut] at hread hcases
            obtain ⟨next, hread, hnext⟩ := hread
            obtain ⟨hline, hcap, hshape⟩ := hcases
            rw [hread]
            rcases hshape with rfl | ⟨rfl, rfl⟩
            · exact .line hline hcap (ih hnext)
            · exact .last hline hcap (fun hnil => hstream (by rw [hnil, onto_nil])) (ih hnext)

/-- Readers of one stream give the same answers, however it was split for each of them. -/
theorem readLines_eq (count : Nat) (h : reader.Gives stream) (hnext : next.Gives stream) :
    readLines cap count reader = readLines cap count next := by
  induction count generalizing reader next stream with
  | zero => rfl
  | succ count ih =>
      rw [readLines, readLines, readCappedLine, readCappedLine]
      by_cases hstream : stream = .nil
      · subst hstream
        obtain ⟨left, hread, hleft⟩ := readLine_nil h cap []
        obtain ⟨other, hother, hgives⟩ := readLine_nil hnext cap []
        rw [hread, hother]
        exact congrArg _ (ih hleft hgives)
      · have hempty : ([] : Bytes).length ≤ cap := Nat.zero_le cap
        have hread := readLine_cut hempty h hstream
        have hother := readLine_cut hempty hnext hstream
        cases hcut : cut newline (cap - ([] : Bytes).length) stream with
        | none =>
            rw [hcut] at hread hother
            obtain ⟨left, hread⟩ := hread
            obtain ⟨other, hother⟩ := hother
            rw [hread, hother]
        | some found =>
            obtain ⟨line, behind⟩ := found
            rw [hcut] at hread hother
            obtain ⟨left, hread, hleft⟩ := hread
            obtain ⟨other, hother, hgives⟩ := hother
            rw [hread, hother]
            exact congrArg _ (ih hleft hgives)

/-- However a stream is split into chunks, reads of it give its lines up to the first that is too long, and hold no
more than a line may have. -/
theorem reads_lines (cap count : Nat) (chunks : Seq (Chunk UInt8)) :
    Lines newline cap (tooLong cap) count (streamOf chunks) (readLines cap count (.of chunks)) ∧
      (∀ others, streamOf others = streamOf chunks →
        readLines cap count (.of others) = readLines cap count (.of chunks)) ∧
      ∀ line reader, Held cap line reader → line.length ≤ cap := by
  refine ⟨readLines_lines count (Reader.gives_of chunks), fun others hsame => ?_, fun line reader h => h.length_le⟩
  exact readLines_eq count (hsame ▸ Reader.gives_of others) (Reader.gives_of chunks)

end Mcp

end Gol
