import Gol.StoreHistory

/-! The live streams (`stream.rs`): a principal's outbox and one run's log, as server-sent events that resume after a
number. A stream's task reads a page, sends it, and waits for a reason to read again; the pages are read at different
moments of a store that grows and is pruned in between. -/

namespace Gol
open Library

/-- What a stream sends. An entry of the outbox has its number as the id, an event of a run its place there; a reset's
id is the number the outbox was pruned through. -/
inductive Sse where
  | event (id : Nat) (runId : RunId) (runSeq : Nat) (event : Event)
  | reset (prunedThrough : Nat)

/-- The number a client resumes after. -/
def Sse.id : Sse → Nat
  | .event id .. => id
  | .reset prunedThrough => prunedThrough

/-- Events per read. -/
def pageSize : Nat := 500

/-- One turn of a stream's loop, as the store and the client have it: the moment of its read, the moment the logs of
an outbox page are read, whether the read fails, how many sends go through before the client is gone, and whether it
goes in the wait. -/
structure StreamTurn where
  read : Nat
  logs : Nat
  fails : Bool
  sends : Nat
  gone : Bool

/-- Turns of one stream, from the moment `start`. -/
def Chronological : Nat → List StreamTurn → Prop
  | _, [] => True
  | start, turn :: rest => start ≤ turn.read ∧ turn.read ≤ turn.logs ∧ Chronological turn.logs rest

/-- A stream's cursor, what it sent, and whether it ended. -/
structure Stream (κ : Type) where
  cursor : κ
  sent : List Sse
  ended : Bool

section Streams

variable (kind : StoreKind) (calls : Nat → (backend kind).Call)

/-- Sends entries, each of which moves the cursor, up to the first that finds the client gone. -/
def sendEntries (stream : Stream (Option Nat)) : List OutboxEntry → Nat → Stream (Option Nat)
  | [], _ => stream
  | _ :: _, 0 => { stream with ended := true }
  | entry :: rest, sends + 1 =>
      sendEntries { stream with
        cursor := some entry.seq
        sent := stream.sent ++ [.event entry.seq entry.runId entry.runSeq entry.event] } rest sends

/-- A turn of `outbox_stream`. -/
def outboxTurn (owner : Owner) (stream : Stream (Option Nat)) (turn : StreamTurn) : Stream (Option Nat) :=
  if stream.ended then stream
  else if turn.fails then { stream with ended := true }
  else
    -- With no cursor yet, only the page's marks: where the end is.
    let (after, limit) := match stream.cursor with
      | some after => (after, pageSize)
      | none => (2 ^ 64 - 1, 0)
    match (backend kind).outboxAfter ((backend kind).state calls turn.read) ((backend kind).state calls turn.logs)
        owner after limit with
    | .error _ => { stream with ended := true }
    | .ok page =>
        match stream.cursor with
        | none => { stream with cursor := some page.last }
        | some after =>
            if after < page.prunedThrough then
              { stream with
                sent := stream.sent ++ if turn.sends = 0 then [] else [.reset page.prunedThrough]
                ended := true }
            else
              let sent := sendEntries stream page.entries turn.sends
              if page.entries.length ≠ pageSize ∧ turn.gone then { sent with ended := true } else sent

/-- `outbox_stream`: `owner`'s outbox after `resume`, then as it grows. -/
def outboxStream (owner : Owner) (resume : Option Nat) (turns : List StreamTurn) : Stream (Option Nat) :=
  turns.foldl (outboxTurn kind calls owner) ⟨resume, [], false⟩

/-- A page of a run, read at one moment. -/
def runPage : (kind : StoreKind) → (backend kind).State → RunId → Nat → Nat → Option StoredRun
  | .memory => InMemoryStore.runPage
  | .postgres => PostgresStore.runPage

/-- Sends a run's events, each with its place, to its terminal one. -/
def sendEvents (runId : RunId) (stream : Stream Nat) : List Event → Nat → Stream Nat
  | [], _ => stream
  | _ :: _, 0 => { stream with ended := true }
  | stored :: rest, sends + 1 =>
      let later : Stream Nat :=
        ⟨stream.cursor + 1, stream.sent ++ [.event (stream.cursor + 1) runId (stream.cursor + 1) stored], stream.ended⟩
      if isTerminal stored.payload then { later with ended := true } else sendEvents runId later rest sends

/-- A turn of `run_stream`: it reads one event before the cursor too, to see whether the log already ended there. -/
def runStreamTurn (runId : RunId) (stream : Stream Nat) (turn : StreamTurn) : Stream Nat :=
  if stream.ended then stream
  else if turn.fails then { stream with ended := true }
  else
    match runPage kind ((backend kind).state calls turn.read) runId (stream.cursor - 1) (pageSize + 1) with
    | none => { stream with ended := true }
    | some run =>
        if stream.cursor > 0 ∧ run.events.head?.any (isTerminal ·.payload) then { stream with ended := true }
        else
          let events := if stream.cursor > 0 then run.events.drop 1 else run.events
          let sent := sendEvents runId stream (events.take pageSize) turn.sends
          if sent.cursor - stream.cursor < pageSize ∧ turn.gone then { sent with ended := true } else sent

/-- `run_stream`: run `runId`'s log after its first `resume` events, then as it grows. -/
def runStream (runId : RunId) (resume : Nat) (turns : List StreamTurn) : Stream Nat :=
  turns.foldl (runStreamTurn kind calls runId) ⟨resume, [], false⟩

/-- A client's connection: the turns of its stream up to what the client got of it, and how much that is. -/
structure Session where
  turns : List StreamTurn
  got : Nat

/-- What a client gets that resumes each connection after the id it got last. -/
def sessions (owner : Owner) : Option Nat → List Session → List Sse
  | _, [] => []
  | resume, session :: rest =>
      let got := (outboxStream kind calls owner resume session.turns).sent.take session.got
      got ++ sessions owner ((got.getLast?.map Sse.id).or resume) rest

end Streams

/-! ### Pages -/

section Proofs

variable {kind : StoreKind} {calls : Nat → (backend kind).Call}

/-- The moment after the turns. -/
def lastMoment (start : Nat) (turns : List StreamTurn) : Nat := turns.foldl (fun _ turn => turn.logs) start

theorem Chronological.le_lastMoment {start : Nat} {turns : List StreamTurn} (h : Chronological start turns) :
    start ≤ lastMoment start turns := by
  induction turns generalizing start with
  | nil => exact Nat.le_refl _
  | cons turn rest ih =>
      obtain ⟨hread, hlogs, hrest⟩ := h
      have hlast := ih hrest
      show start ≤ lastMoment turn.logs rest
      omega

theorem chronological_append {start : Nat} {turns more : List StreamTurn} :
    Chronological start (turns ++ more) ↔ Chronological start turns ∧ Chronological (lastMoment start turns) more := by
  induction turns generalizing start with
  | nil => simp [Chronological, lastMoment]
  | cons turn rest ih =>
      show _ ∧ _ ∧ Chronological turn.logs (rest ++ more) ↔ (_ ∧ _ ∧ _) ∧ Chronological (lastMoment turn.logs rest) more
      rw [ih]
      tauto

/-- The event a stream sends of an entry. -/
def OutboxEntry.sse (entry : OutboxEntry) : Sse := .event entry.seq entry.runId entry.runSeq entry.event

/-- An entry is the principal's: its number was issued to it by the moment, for this run's event. -/
def Entry (kind : StoreKind) (calls : Nat → (backend kind).Call) (owner : Owner) (now : Nat)
    (entry : OutboxEntry) : Prop :=
  ∃ row ∈ (backend kind).issued calls now, row.key = principal owner ∧ ((backend kind).viewAt calls now).Names row entry

theorem Entry.mono {owner : Owner} {i j : Nat} (hij : i ≤ j) {entry : OutboxEntry}
    (h : Entry kind calls owner i entry) :
    Entry kind calls owner j entry := by
  obtain ⟨row, hrow, hkey, hseq, hitem, run, hrun, hevent⟩ := h
  obtain ⟨more, hlater⟩ := Backend.grows_of_le (refines kind) calls hij _ run hrun
  refine ⟨row, Backend.issued_mono calls hij hrow, hkey, hseq, hitem, _, hlater, ?_⟩
  rw [List.getElem?_append_left (List.getElem?_eq_some_iff.mp hevent).1]
  exact hevent

theorem names_page {view : LogStore} {rows : List (Row Principal (RunId × Nat))} {entries : List OutboxEntry}
    (h : List.Forall₂ view.Names rows entries) :
    entries.map OutboxEntry.seq = rows.map Row.seq ∧ ∀ entry ∈ entries, ∃ row ∈ rows, view.Names row entry := by
  induction h with
  | nil => exact ⟨rfl, fun entry hentry => absurd hentry List.not_mem_nil⟩
  | @cons row entry rows entries hnames _ ih =>
      refine ⟨by rw [List.map_cons, List.map_cons, hnames.1, ih.1], fun other hother => ?_⟩
      rcases List.mem_cons.mp hother with rfl | hother
      · exact ⟨row, List.mem_cons_self .., hnames⟩
      · obtain ⟨named, hmem, hnamed⟩ := ih.2 other hother
        exact ⟨named, List.mem_cons_of_mem _ hmem, hnamed⟩

/-- A page past what was pruned holds the entries after the cursor with no gap. -/
theorem page_exact {i j : Nat} (hij : i ≤ j) {owner : Owner} {after : Nat} (limit : Nat)
    (hpruned : ((backend kind).viewAt calls i).outbox.pruned (principal owner) ≤ after)
    (hafter : after ≤ ((backend kind).viewAt calls i).outbox.counts (principal owner)) :
    ∃ entries, (backend kind).outboxAfter ((backend kind).state calls i)
      ((backend kind).state calls j) owner after limit =
        .ok ⟨entries, ((backend kind).viewAt calls i).outbox.pruned (principal owner),
          ((backend kind).viewAt calls i).outbox.counts (principal owner)⟩ ∧
      entries.map OutboxEntry.seq = List.range' (after + 1) entries.length ∧
      entries.length = min limit (((backend kind).viewAt calls i).outbox.counts (principal owner) - after) ∧
      ∀ entry ∈ entries, Entry kind calls owner i entry := by
  obtain ⟨entries, hpage, hnames⟩ := Backend.page_at (refines kind) calls hij owner after limit
  have hsound := Backend.sound_at (refines kind) calls i
  have hkept := hsound.accounts.retained_seqs (principal owner)
  have hlength := congrArg List.length hkept
  rw [List.length_map, List.length_range'] at hlength
  rw [← hlength] at hkept
  have hrows : (((backend kind).viewAt calls i).outbox.rows.filter fun row => row.key = principal owner ∧
    after < row.seq) =
      (((backend kind).viewAt calls i).outbox.rows.filter (·.key = principal owner)).drop
        (after - ((backend kind).viewAt calls i).outbox.pruned (principal owner)) := by
    rw [← filter_of_numbered Row.seq hkept, List.filter_filter]
    refine List.filter_congr fun row _ => ?_
    rw [Bool.decide_and, Bool.and_comm, Nat.add_sub_cancel' hpruned]
  rw [hrows] at hnames
  have hcount : entries.length =
      min limit (((backend kind).viewAt calls i).outbox.counts (principal owner) - after) := by
    rw [← hnames.length_eq, List.length_take, List.length_drop, hlength]
    omega
  refine ⟨entries, hpage, ?_, hcount, fun entry hentry => ?_⟩
  · rw [(names_page hnames).1, List.map_take, List.map_drop, hkept, hcount]
    apply List.ext_getElem
    · simp only [List.length_take, List.length_drop, List.length_range', hlength]
      omega
    · intro n hn hn'
      simp only [List.getElem_take, List.getElem_drop, List.getElem_range']
      omega
  · obtain ⟨row, hrow, hnamed⟩ := (names_page hnames).2 entry hentry
    obtain ⟨hmem, hkey⟩ := List.mem_filter.mp (List.mem_of_mem_drop (List.mem_of_mem_take hrow))
    exact ⟨row, hsound.accounts.mem_issued hmem, of_decide_eq_true hkey, hnamed⟩

/-! ### The outbox -/

/-- What is sent of entries numbered after the cursor. -/
theorem sendEntries_eq {entries : List OutboxEntry} {cursor : Nat}
    (hseqs : entries.map OutboxEntry.seq = List.range' (cursor + 1) entries.length) (sent : List Sse)
    (ended : Bool) (sends : Nat) :
    sendEntries ⟨some cursor, sent, ended⟩ entries sends =
      ⟨some (cursor + (entries.take sends).length), sent ++ (entries.take sends).map OutboxEntry.sse,
        ended || decide (sends < entries.length)⟩ := by
  induction entries generalizing cursor sent sends with
  | nil => simp [sendEntries]
  | cons entry rest ih =>
      rw [List.map_cons, List.length_cons, List.range'_succ, List.cons.injEq] at hseqs
      cases sends with
      | zero => simp [sendEntries]
      | succ sends =>
          rw [sendEntries, hseqs.1, ih hseqs.2, List.take_succ_cons, List.map_cons, List.length_cons, List.length_cons,
            List.append_assoc, List.singleton_append, OutboxEntry.sse, hseqs.1]
          congr 1
          · congr 1
            omega
          · simp

/-- What a stream of `owner`'s outbox after `n` has sent by a moment: entries with no gap, and a reset once one past
them was pruned, which ends it. -/
structure Outgoing (kind : StoreKind) (calls : Nat → (backend kind).Call) (owner : Owner) (n now : Nat)
    (stream : Stream (Option Nat)) (entries : List OutboxEntry) : Prop where
  cursor : stream.cursor = some (n + entries.length)
  seqs : entries.map OutboxEntry.seq = List.range' (n + 1) entries.length
  owned : ∀ entry ∈ entries, Entry kind calls owner now entry
  issued : n + entries.length ≤ ((backend kind).viewAt calls now).outbox.counts (principal owner)
  sent : stream.sent = entries.map OutboxEntry.sse ∨
    (stream.ended = true ∧ ∃ through, n + entries.length < through ∧
      through ≤ ((backend kind).viewAt calls now).outbox.counts (principal owner) ∧
      stream.sent = entries.map OutboxEntry.sse ++ [.reset through])

theorem take_range' (start count limit : Nat) :
    (List.range' start count).take limit = List.range' start (min limit count) := by
  rcases Nat.le_total count limit with h | h
  · rw [List.take_range'_of_length_le h, Nat.min_eq_right h]
  · rw [List.take_range'_of_length_ge h, Nat.min_eq_left h]

theorem outboxTurn_ended {owner : Owner} {stream : Stream (Option Nat)} (h : stream.ended = true) (turn : StreamTurn) :
    outboxTurn kind calls owner stream turn = stream := by
  rw [outboxTurn, if_pos h]

theorem outboxTurn_fails {owner : Owner} {cursor : Option Nat} {sent : List Sse} {turn : StreamTurn}
    (h : turn.fails = true) :
    outboxTurn kind calls owner ⟨cursor, sent, false⟩ turn = ⟨cursor, sent, true⟩ := by
  rw [outboxTurn, if_neg Bool.false_ne_true, if_pos h]

/-- A turn whose read finds the entries after the cursor pruned. -/
theorem outboxTurn_pruned {owner : Owner} {cursor : Nat} {sent : List Sse} {turn : StreamTurn}
    (hread : turn.fails = false) (hlogs : turn.read ≤ turn.logs)
    (h : cursor < ((backend kind).viewAt calls turn.read).outbox.pruned (principal owner)) :
    outboxTurn kind calls owner ⟨some cursor, sent, false⟩ turn =
      ⟨some cursor, sent ++ if turn.sends = 0 then []
        else [.reset (((backend kind).viewAt calls turn.read).outbox.pruned (principal owner))], true⟩ := by
  obtain ⟨entries, hpage, -⟩ := Backend.page_at (refines kind) calls hlogs owner cursor pageSize
  simp only [outboxTurn, hread, hpage, if_pos h, Bool.false_eq_true, if_false]

/-- A turn whose read finds them kept. -/
theorem outboxTurn_kept {owner : Owner} {cursor : Nat} (sent : List Sse) {turn : StreamTurn}
    (hread : turn.fails = false) (hlogs : turn.read ≤ turn.logs)
    (hpruned : ((backend kind).viewAt calls turn.read).outbox.pruned (principal owner) ≤ cursor)
    (hcursor : cursor ≤ ((backend kind).viewAt calls turn.read).outbox.counts (principal owner)) :
    ∃ entries : List OutboxEntry, entries.map OutboxEntry.seq = List.range' (cursor + 1) entries.length ∧
      entries.length = min pageSize (((backend kind).viewAt calls turn.read).outbox.counts (principal owner) - cursor) ∧
      (∀ entry ∈ entries, Entry kind calls owner turn.read entry) ∧
      outboxTurn kind calls owner ⟨some cursor, sent, false⟩ turn =
        ⟨some (cursor + (entries.take turn.sends).length), sent ++ (entries.take turn.sends).map OutboxEntry.sse,
          decide (turn.sends < entries.length) || (decide (entries.length ≠ pageSize) && turn.gone)⟩ := by
  obtain ⟨entries, hpage, hseqs, hlength, howned⟩ := page_exact hlogs pageSize hpruned hcursor
  refine ⟨entries, hseqs, hlength, howned, ?_⟩
  simp only [outboxTurn, hread, hpage, if_neg (Nat.not_lt.mpr hpruned), Bool.false_eq_true, if_false,
    sendEntries_eq hseqs, Bool.false_or]
  by_cases hgone : entries.length ≠ pageSize ∧ turn.gone = true
  · rw [if_pos hgone]
    simp [hgone]
  · rw [if_neg hgone]
    have hstays : (decide (entries.length ≠ pageSize) && turn.gone) = false := by
      simpa using hgone
    rw [hstays, Bool.or_false]

/-- A turn keeps what was sent exact, and a read that goes through brings the stream to the end of the outbox or of a
page. -/
theorem Outgoing.turn {owner : Owner} {n now : Nat} {stream : Stream (Option Nat)} {entries : List OutboxEntry}
    (h : Outgoing kind calls owner n now stream entries) {turn : StreamTurn} (hread : now ≤ turn.read)
    (hlogs : turn.read ≤ turn.logs) :
    ∃ later, Outgoing kind calls owner n turn.logs (outboxTurn kind calls owner stream turn) later := by
  have hgrown : ∀ {i j}, i ≤ j → ((backend kind).viewAt calls i).outbox.counts (principal owner) ≤
      ((backend kind).viewAt calls j).outbox.counts (principal owner) :=
    fun hij => Backend.counts_mono (refines kind) calls (principal owner) hij
  have hkeeps : Outgoing kind calls owner n turn.logs stream entries := by
    refine ⟨h.cursor, h.seqs, fun entry hentry => (h.owned entry hentry).mono (hread.trans hlogs),
      h.issued.trans (hgrown (hread.trans hlogs)), ?_⟩
    rcases h.sent with hsent | ⟨hended, through, hlt, hle, hsent⟩
    · exact .inl hsent
    · exact .inr ⟨hended, through, hlt, hle.trans (hgrown (hread.trans hlogs)), hsent⟩
  obtain ⟨cursor, sent, ended⟩ := stream
  cases ended with
  | true => exact ⟨entries, by rwa [outboxTurn_ended rfl]⟩
  | false =>
      obtain rfl : cursor = some (n + entries.length) := h.cursor
      obtain rfl : sent = entries.map OutboxEntry.sse := by
        rcases h.sent with hsent | ⟨hended, -⟩
        · exact hsent
        · exact absurd hended Bool.false_ne_true
      by_cases hfails : turn.fails = true
      · rw [outboxTurn_fails hfails]
        exact ⟨entries, rfl, hkeeps.seqs, hkeeps.owned, hkeeps.issued, .inl rfl⟩
      have hfails : turn.fails = false := eq_false_of_ne_true hfails
      by_cases hpruned : n + entries.length < ((backend kind).viewAt calls turn.read).outbox.pruned (principal owner)
      · rw [outboxTurn_pruned hfails hlogs hpruned]
        refine ⟨entries, rfl, hkeeps.seqs, hkeeps.owned, hkeeps.issued, ?_⟩
        by_cases hsends : turn.sends = 0
        · rw [if_pos hsends]
          exact .inl (List.append_nil _)
        · rw [if_neg hsends]
          have hbounded := (Backend.sound_at (refines kind) calls turn.read).accounts.bounded (principal owner)
          exact .inr ⟨rfl, _, hpruned, hbounded.trans (hgrown hlogs), rfl⟩
      · obtain ⟨page, hseqs, hlength, howned, hturn⟩ := outboxTurn_kept (entries.map OutboxEntry.sse) hfails hlogs
          (Nat.le_of_not_lt hpruned) (h.issued.trans (hgrown hread))
        rw [hturn]
        have htaken : (page.take turn.sends).length ≤ page.length := List.length_take_le' ..
        refine ⟨entries ++ page.take turn.sends, ?_, ?_, ?_, ?_, .inl List.map_append.symm⟩
        · show some _ = some _
          rw [List.length_append, Nat.add_assoc]
        · rw [List.map_append, List.map_take, h.seqs, hseqs, List.length_append, take_range', ← List.length_take,
            Nat.add_right_comm, List.range'_append_1]
        · intro entry hentry
          rcases List.mem_append.mp hentry with hold | hnew
          · exact hkeeps.owned entry hold
          · exact (howned entry (List.mem_of_mem_take hnew)).mono hlogs
        · have hcounts := hgrown hlogs
          rw [List.length_append]
          have hissued := h.issued.trans (hgrown hread)
          omega

theorem Outgoing.turns {owner : Owner} {n now : Nat} {stream : Stream (Option Nat)} {entries : List OutboxEntry}
    (h : Outgoing kind calls owner n now stream entries) {turns : List StreamTurn} (htimes : Chronological now turns) :
    ∃ later, Outgoing kind calls owner n (lastMoment now turns)
      (turns.foldl (outboxTurn kind calls owner) stream) later := by
  induction turns generalizing now stream entries with
  | nil => exact ⟨entries, h⟩
  | cons turn rest ih =>
      obtain ⟨hread, hlogs, hrest⟩ := htimes
      obtain ⟨later, hlater⟩ := h.turn hread hlogs
      exact ih hlater hrest

theorem outgoing_start {owner : Owner} {n start : Nat}
    (hn : n ≤ ((backend kind).viewAt calls start).outbox.counts (principal owner)) :
    Outgoing kind calls owner n start ⟨some n, [], false⟩ [] :=
  ⟨rfl, rfl, fun _ hentry => absurd hentry List.not_mem_nil, hn, .inl rfl⟩

/-- A stream of the outbox after `n`, at any moment. -/
theorem outgoing_stream {owner : Owner} {n start : Nat} {turns : List StreamTurn}
    (hn : n ≤ ((backend kind).viewAt calls start).outbox.counts (principal owner))
    (htimes : Chronological start turns) :
    ∃ entries, Outgoing kind calls owner n (lastMoment start turns)
      (outboxStream kind calls owner (some n) turns) entries :=
  (outgoing_start hn).turns htimes

theorem outboxStream_snoc (owner : Owner) (resume : Option Nat) (turns : List StreamTurn) (turn : StreamTurn) :
    outboxStream kind calls owner resume (turns ++ [turn]) =
      outboxTurn kind calls owner (outboxStream kind calls owner resume turns) turn := by
  rw [outboxStream, List.foldl_append]
  rfl

/-- Turns after the end add nothing. -/
theorem outboxStream_ended {owner : Owner} {resume : Option Nat} {turns : List StreamTurn}
    (h : (outboxStream kind calls owner resume turns).ended = true) (more : List StreamTurn) :
    outboxStream kind calls owner resume (turns ++ more) = outboxStream kind calls owner resume turns := by
  induction more using List.reverseRecOn with
  | nil => rw [List.append_nil]
  | append_singleton more turn ih =>
      rw [← List.append_assoc, outboxStream_snoc, ih]
      exact outboxTurn_ended h turn

/-- While a stream goes on, all it sent is entries, the cursor the last one's number. -/
theorem Outgoing.going {owner : Owner} {n now : Nat} {stream : Stream (Option Nat)} {entries : List OutboxEntry}
    (h : Outgoing kind calls owner n now stream entries) (hgoing : stream.ended = false) :
    stream = ⟨some (n + stream.sent.length), entries.map OutboxEntry.sse, false⟩ ∧
      stream.sent.length = entries.length := by
  have hsent : stream.sent = entries.map OutboxEntry.sse := by
    rcases h.sent with hsent | ⟨hended, -⟩
    · exact hsent
    · exact absurd hended (ne_true_of_eq_false hgoing)
  have hlength : stream.sent.length = entries.length := by rw [hsent, List.length_map]
  refine ⟨?_, hlength⟩
  rw [hlength, ← h.cursor, ← hsent, ← hgoing]

/-- A row was pruned by the moment exactly when its number is among those pruned. -/
theorem pruned_iff {i : Nat} {row : Row Principal (RunId × Nat)} (hrow : row ∈ (backend kind).issued calls i) :
    row ∉ ((backend kind).viewAt calls i).outbox.rows ↔
      row.seq ≤ ((backend kind).viewAt calls i).outbox.pruned row.key := by
  rw [(Backend.sound_at (refines kind) calls i).accounts.retained, List.mem_filter, not_and,
    decide_eq_true_iff, Nat.not_lt]
  exact ⟨fun h => h hrow, fun h _ => h⟩

/-- Numbers pruned were issued: there is a pruned row after the cursor when the cursor is below what was pruned. -/
theorem exists_pruned_iff {owner : Owner} {i cursor : Nat} :
    (∃ row ∈ (backend kind).issued calls i, row.key = principal owner ∧ cursor < row.seq ∧
        row ∉ ((backend kind).viewAt calls i).outbox.rows) ↔
      cursor < ((backend kind).viewAt calls i).outbox.pruned (principal owner) := by
  have hsound := Backend.sound_at (refines kind) calls i
  constructor
  · rintro ⟨row, hrow, hkey, hcursor, hgone⟩
    have hpruned := (pruned_iff hrow).mp hgone
    rw [hkey] at hpruned
    omega
  · intro hcursor
    have hbounded := hsound.accounts.bounded (principal owner)
    have hissued : ((backend kind).viewAt calls i).outbox.pruned (principal owner) ∈
        (((backend kind).issued calls i).filter (·.key = principal owner)).map Row.seq := by
      rw [hsound.accounts.numbered, List.mem_range'_1]
      omega
    obtain ⟨row, hrow, hseq⟩ := List.mem_map.mp hissued
    obtain ⟨hrow, hkey⟩ := List.mem_filter.mp hrow
    have hkey : row.key = principal owner := of_decide_eq_true hkey
    refine ⟨row, hrow, hkey, by omega, (pruned_iff hrow).mpr ?_⟩
    rw [hkey, hseq]

/-- A turn sends a reset exactly when an entry not sent yet was pruned before its read. -/
theorem Outgoing.reset_iff {owner : Owner} {n now : Nat} {stream : Stream (Option Nat)} {entries : List OutboxEntry}
    (h : Outgoing kind calls owner n now stream entries) (hgoing : stream.ended = false) {turn : StreamTurn}
    (hread : now ≤ turn.read) (hlogs : turn.read ≤ turn.logs) (through : Nat) :
    .reset through ∈ (outboxTurn kind calls owner stream turn).sent ↔
      turn.fails = false ∧ 0 < turn.sends ∧
        through = ((backend kind).viewAt calls turn.read).outbox.pruned (principal owner) ∧
        ∃ row ∈ (backend kind).issued calls turn.read, row.key = principal owner ∧ n + stream.sent.length < row.seq ∧
          row ∉ ((backend kind).viewAt calls turn.read).outbox.rows := by
  rw [exists_pruned_iff]
  obtain ⟨hstream, hlength⟩ := h.going hgoing
  have hentries : ∀ sent : List OutboxEntry, Sse.reset through ∉ sent.map OutboxEntry.sse := by
    intro sent hmem
    obtain ⟨entry, -, hentry⟩ := List.mem_map.mp hmem
    cases hentry
  rw [hstream]
  show _ ∈ (outboxTurn kind calls owner ⟨_, _, false⟩ turn).sent ↔ _ ∧ _ ∧ _ ∧
    n + (entries.map OutboxEntry.sse).length < _
  rw [List.length_map, hlength]
  by_cases hfails : turn.fails = true
  · rw [outboxTurn_fails hfails]
    simp [hfails, hentries]
  have hfails : turn.fails = false := eq_false_of_ne_true hfails
  by_cases hpruned : n + entries.length < ((backend kind).viewAt calls turn.read).outbox.pruned (principal owner)
  · rw [outboxTurn_pruned hfails hlogs hpruned]
    by_cases hsends : turn.sends = 0
    · simp [hsends, hentries]
    · simp [hsends, hentries, hfails, hpruned, Nat.pos_of_ne_zero hsends]
  · obtain ⟨page, -, -, -, hturn⟩ := outboxTurn_kept (entries.map OutboxEntry.sse) hfails hlogs
      (Nat.le_of_not_lt hpruned)
      (h.issued.trans (Backend.counts_mono (refines kind) calls (principal owner) hread))
    rw [hturn, ← List.map_append]
    exact ⟨fun hmem => absurd hmem (hentries _), fun hreset => absurd hreset.2.2.2 hpruned⟩

/-- A turn after which the stream goes on has sent the rest of the outbox or a page of it. -/
theorem Outgoing.progress {owner : Owner} {n now : Nat} {stream : Stream (Option Nat)} {entries : List OutboxEntry}
    (h : Outgoing kind calls owner n now stream entries) {turn : StreamTurn} (hread : now ≤ turn.read)
    (hlogs : turn.read ≤ turn.logs) (hgoing : (outboxTurn kind calls owner stream turn).ended = false) :
    (outboxTurn kind calls owner stream turn).sent.length = min (stream.sent.length + pageSize)
      (((backend kind).viewAt calls turn.read).outbox.counts (principal owner) - n) := by
  have hbefore : stream.ended = false := by
    by_contra hended
    rw [outboxTurn_ended (eq_true_of_ne_false hended)] at hgoing
    exact hended hgoing
  obtain ⟨hstream, hlength⟩ := h.going hbefore
  rw [hlength] at hstream ⊢
  rw [hstream] at hgoing ⊢
  have hissued := h.issued.trans (Backend.counts_mono (refines kind) calls (principal owner) hread)
  by_cases hfails : turn.fails = true
  · rw [outboxTurn_fails hfails] at hgoing
    exact absurd hgoing Bool.true_eq_false.mp
  have hfails : turn.fails = false := eq_false_of_ne_true hfails
  by_cases hpruned : n + entries.length < ((backend kind).viewAt calls turn.read).outbox.pruned (principal owner)
  · rw [outboxTurn_pruned hfails hlogs hpruned] at hgoing
    exact absurd hgoing Bool.true_eq_false.mp
  · obtain ⟨page, -, hpage, -, hturn⟩ := outboxTurn_kept (entries.map OutboxEntry.sse) hfails hlogs
      (Nat.le_of_not_lt hpruned) hissued
    rw [hturn] at hgoing ⊢
    have hall : page.length ≤ turn.sends := by simpa using (Bool.or_eq_false_iff.mp hgoing).1
    simp only [List.length_append, List.length_map, List.take_of_length_le hall, hpage]
    omega

/-- A stream goes on but for a failed read, a client that is gone, or entries pruned before it read them. -/
theorem Outgoing.stays {owner : Owner} {n now : Nat} {stream : Stream (Option Nat)} {entries : List OutboxEntry}
    (h : Outgoing kind calls owner n now stream entries) (hgoing : stream.ended = false) {turn : StreamTurn}
    (hread : now ≤ turn.read) (hlogs : turn.read ≤ turn.logs) (hfails : turn.fails = false)
    (hsends : pageSize ≤ turn.sends) (hgone : turn.gone = false)
    (hpruned : ((backend kind).viewAt calls turn.read).outbox.pruned (principal owner) ≤ n + stream.sent.length) :
    (outboxTurn kind calls owner stream turn).ended = false := by
  obtain ⟨hstream, hlength⟩ := h.going hgoing
  rw [hlength] at hpruned hstream
  have hissued := h.issued.trans (Backend.counts_mono (refines kind) calls (principal owner) hread)
  obtain ⟨page, -, hpage, -, hturn⟩ := outboxTurn_kept (entries.map OutboxEntry.sse) hfails hlogs hpruned hissued
  rw [hstream, hturn]
  have hall : page.length ≤ turn.sends := by omega
  simp [hgone, hall]

/-! ### A client's connections -/

theorem ids_entries (entries : List OutboxEntry) :
    (entries.map OutboxEntry.sse).map Sse.id = entries.map OutboxEntry.seq := by
  rw [List.map_map]
  rfl

/-- The ids of a stream after `n` increase, from past `n` to at most the last number issued. -/
theorem Outgoing.ids {owner : Owner} {n now : Nat} {stream : Stream (Option Nat)} {entries : List OutboxEntry}
    (h : Outgoing kind calls owner n now stream entries) :
    (stream.sent.map Sse.id).Pairwise (· < ·) ∧ ∀ id ∈ stream.sent.map Sse.id,
      n < id ∧ id ≤ ((backend kind).viewAt calls now).outbox.counts (principal owner) := by
  have hordered : (entries.map OutboxEntry.seq).Pairwise (· < ·) := by
    rw [h.seqs]
    exact List.pairwise_lt_range'
  have hwithin : ∀ id ∈ entries.map OutboxEntry.seq, n < id ∧ id ≤ n + entries.length := by
    intro id hid
    rw [h.seqs, List.mem_range'_1] at hid
    omega
  have hissued := h.issued
  rcases h.sent with hsent | ⟨-, through, hlt, hle, hsent⟩
  · rw [hsent, ids_entries]
    refine ⟨hordered, fun id hid => ?_⟩
    obtain ⟨hfrom, hto⟩ := hwithin id hid
    exact ⟨hfrom, hto.trans hissued⟩
  · rw [hsent, List.map_append, ids_entries]
    refine ⟨List.pairwise_append.mpr ⟨hordered, List.pairwise_singleton .., fun id hid last hlast => ?_⟩,
      fun id hid => ?_⟩
    · obtain rfl : last = through := by simpa [Sse.id] using hlast
      exact (hwithin id hid).2.trans_lt hlt
    · rcases List.mem_append.mp hid with hid | hid
      · obtain ⟨hfrom, hto⟩ := hwithin id hid
        exact ⟨hfrom, hto.trans hissued⟩
      · obtain rfl : id = through := by simpa [Sse.id] using hid
        omega

/-- A stream with no cursor sends nothing until it has found the end of the outbox. -/
theorem outgoing_stream_none {owner : Owner} {start : Nat} {turns : List StreamTurn}
    (htimes : Chronological start turns) :
    (outboxStream kind calls owner none turns).sent = [] ∨
    ∃ n entries, Outgoing kind calls owner n (lastMoment start turns)
      (outboxStream kind calls owner none turns) entries := by
  have hturns : ∀ ended, (turns.foldl (outboxTurn kind calls owner) ⟨none, [], ended⟩).sent = [] ∨
      ∃ n entries, Outgoing kind calls owner n (lastMoment start turns)
        (turns.foldl (outboxTurn kind calls owner) ⟨none, [], ended⟩) entries := by
    induction turns generalizing start with
    | nil => exact fun _ => .inl rfl
    | cons turn rest ih =>
        intro ended
        obtain ⟨hread, hlogs, hrest⟩ := htimes
        show (rest.foldl _ (outboxTurn kind calls owner ⟨none, [], ended⟩ turn)).sent = [] ∨
          ∃ n entries, Outgoing kind calls owner n (lastMoment turn.logs rest)
            (rest.foldl _ (outboxTurn kind calls owner ⟨none, [], ended⟩ turn)) entries
        cases ended with
        | true =>
            rw [outboxTurn_ended rfl]
            exact ih hrest true
        | false =>
            by_cases hfails : turn.fails = true
            · rw [outboxTurn_fails hfails]
              exact ih hrest true
            · obtain ⟨entries, hpage, -⟩ := Backend.page_at (refines kind) calls hlogs owner (2 ^ 64 - 1) 0
              have hturn : outboxTurn kind calls owner ⟨none, [], false⟩ turn =
                  ⟨some (((backend kind).viewAt calls turn.read).outbox.counts (principal owner)), [], false⟩ := by
                simp only [outboxTurn, hpage, if_neg hfails, Bool.false_eq_true, if_false]
              rw [hturn]
              have hcounts := Backend.counts_mono (refines kind) calls (principal owner) hlogs
              exact .inr ⟨_, (outgoing_start hcounts).turns hrest⟩
  exact hturns false

/-- The ids a client gets over its connections increase. -/
theorem ids_sessions {owner : Owner} {resume : Option Nat} {start : Nat} {connections : List Session}
    (hresume : ∀ n, resume = some n → n ≤ ((backend kind).viewAt calls start).outbox.counts (principal owner))
    (htimes : Chronological start (connections.flatMap Session.turns)) :
    ((sessions kind calls owner resume connections).map Sse.id).Pairwise (· < ·) ∧
      ∀ n, resume = some n → ∀ id ∈ (sessions kind calls owner resume connections).map Sse.id, n < id := by
  induction connections generalizing resume start with
  | nil => exact ⟨List.Pairwise.nil, fun _ _ _ hid => absurd hid List.not_mem_nil⟩
  | cons session rest ih =>
      rw [List.flatMap_cons, chronological_append] at htimes
      obtain ⟨hturns, hrest⟩ := htimes
      have hlater := Backend.counts_mono (refines kind) calls (principal owner) hturns.le_lastMoment
      -- What one stream sends, whether it resumes or starts at the end.
      have hsent : ((outboxStream kind calls owner resume session.turns).sent.map Sse.id).Pairwise (· < ·) ∧
          ∀ id ∈ (outboxStream kind calls owner resume session.turns).sent.map Sse.id, (∀ n, resume = some n → n < id) ∧
            id ≤ ((backend kind).viewAt calls (lastMoment start session.turns)).outbox.counts (principal owner) := by
        cases resume with
        | none =>
            rcases outgoing_stream_none hturns with hempty | ⟨n, entries, hout⟩
            · rw [hempty]
              exact ⟨List.Pairwise.nil, fun _ hid => absurd hid List.not_mem_nil⟩
            · exact ⟨hout.ids.1, fun id hid => ⟨nofun, (hout.ids.2 id hid).2⟩⟩
        | some n =>
            obtain ⟨entries, hout⟩ := outgoing_stream (hresume n rfl) hturns
            refine ⟨hout.ids.1, fun id hid => ⟨fun m hm => ?_, (hout.ids.2 id hid).2⟩⟩
            cases hm
            exact (hout.ids.2 id hid).1
      generalize hgot : (outboxStream kind calls owner resume session.turns).sent.take session.got = got
      have hids : (got.map Sse.id).Sublist ((outboxStream kind calls owner resume session.turns).sent.map Sse.id) := by
        rw [← hgot, List.map_take]
        exact List.take_sublist ..
      have hordered := hsent.1.sublist hids
      rw [sessions, hgot, List.map_append]
      rcases List.eq_nil_or_concat got with rfl | ⟨firsts, last, rfl⟩
      · exact ih (fun n hn => (hresume n hn).trans hlater) hrest
      · rw [List.concat_eq_append, List.getLast?_append, List.getLast?_singleton, Option.some_or, Option.map_some,
          Option.some_or]
        rw [List.concat_eq_append] at hids hordered
        have hlast : last.id ∈ (firsts ++ [last]).map Sse.id :=
          List.mem_map_of_mem (List.mem_append_right _ (List.mem_singleton_self _))
        have hmost : ∀ id ∈ (firsts ++ [last]).map Sse.id, id ≤ last.id := by
          intro id hid
          rw [List.map_append] at hid hordered
          rcases List.mem_append.mp hid with hid | hid
          · exact ((List.pairwise_append.mp hordered).2.2 id hid last.id (List.mem_singleton_self _)).le
          · rw [List.map_singleton, List.mem_singleton] at hid
            exact hid.le
        have hresumes : ∀ n, some last.id = some n →
            n ≤ ((backend kind).viewAt calls (lastMoment start session.turns)).outbox.counts (principal owner) := by
          rintro n ⟨⟩
          exact (hsent.2 _ (hids.subset hlast)).2
        obtain ⟨hrestOrdered, hrestFrom⟩ := ih hresumes hrest
        refine ⟨List.pairwise_append.mpr ⟨hordered, hrestOrdered, fun id hid later hlater => ?_⟩, fun n hn id hid => ?_⟩
        · exact (hmost id hid).trans_lt (hrestFrom last.id rfl later hlater)
        · rcases List.mem_append.mp hid with hid | hid
          · exact (hsent.2 id (hids.subset hid)).1 n hn
          · exact ((hsent.2 _ (hids.subset hlast)).1 n hn).trans (hrestFrom last.id rfl id hid)

/-! ### A run -/

/-- Events of a run's log after its first `place`, as a stream sends them. -/
def sentAfter (runId : RunId) : Nat → List Event → List Sse
  | _, [] => []
  | place, event :: rest => .event (place + 1) runId (place + 1) event :: sentAfter runId (place + 1) rest

@[simp] theorem length_sentAfter (runId : RunId) (place : Nat) (events : List Event) :
    (sentAfter runId place events).length = events.length := by
  induction events generalizing place with
  | nil => rfl
  | cons event rest ih => rw [sentAfter, List.length_cons, ih, List.length_cons]

theorem sentAfter_append (runId : RunId) (place : Nat) (events more : List Event) :
    sentAfter runId place (events ++ more) = sentAfter runId place events ++ sentAfter runId
      (place + events.length) more := by
  induction events generalizing place with
  | nil => rfl
  | cons event rest ih =>
      rw [List.cons_append, sentAfter, ih, sentAfter, List.cons_append, List.length_cons, Nat.add_right_comm,
        Nat.add_assoc place]

theorem mem_sentAfter {runId : RunId} {place : Nat} {events : List Event} {sse : Sse}
    (h : sse ∈ sentAfter runId place events) :
    ∃ i event, events[i]? = some event ∧ sse = .event (place + i + 1) runId (place + i + 1) event := by
  induction events generalizing place with
  | nil => exact absurd h List.not_mem_nil
  | cons event rest ih =>
      rcases List.mem_cons.mp h with rfl | h
      · exact ⟨0, event, rfl, rfl⟩
      · obtain ⟨i, later, hi, hsse⟩ := ih h
        refine ⟨i + 1, later, hi, ?_⟩
        rw [hsse, Nat.add_right_comm place 1 i, Nat.add_assoc place i 1]

/-- What is sent of events that end at a terminal one. -/
theorem sendEvents_eq (runId : RunId) {events : List Event} (hends : EndsAtTerminal events)
    (cursor : Nat) (sent : List Sse) (sends : Nat) :
    sendEvents runId ⟨cursor, sent, false⟩ events sends =
      ⟨cursor + (events.take sends).length, sent ++ sentAfter runId cursor (events.take sends),
        decide (sends < events.length) || hasEnded (events.take sends)⟩ := by
  induction events generalizing cursor sent sends with
  | nil => simp [sendEvents, sentAfter, hasEnded]
  | cons event rest ih =>
      cases sends with
      | zero => simp [sendEvents, sentAfter]
      | succ sends =>
          by_cases hterminal : isTerminal event.payload = true
          · obtain rfl : rest = [] := by
              have hlast := hends 0 event rfl hterminal
              exact List.eq_nil_of_length_eq_zero (by simpa using hlast.symm)
            simp [sendEvents, hterminal, sentAfter, hasEnded]
          · have hrest : EndsAtTerminal rest := by
              intro i later hi hend
              have hlast := hends (i + 1) later hi hend
              rw [List.length_cons] at hlast
              omega
            have hnone : hasEnded (event :: rest.take sends) = hasEnded (rest.take sends) := by
              rw [hasEnded, List.any_cons, eq_false_of_ne_true hterminal, Bool.false_or, hasEnded]
            rw [sendEvents, if_neg hterminal, ih hrest, List.take_succ_cons, List.length_cons, List.length_cons,
              sentAfter, List.append_assoc, List.singleton_append, hnone]
            congr 1
            · show cursor + 1 + _ = cursor + (_ + 1)
              omega
            · simp

/-- A page read at a moment is that of the log then. -/
theorem runPage_at (i : Nat) (runId : RunId) (after limit : Nat) :
    runPage kind ((backend kind).state calls i) runId after limit =
      ((backend kind).viewAt calls i).runPage runId after limit := by
  cases kind with
  | memory => rfl
  | postgres => exact PostgresStore.Consistent.runPage_eq (Backend.inv_state postgresRefines calls i) runId after limit

theorem runStreamTurn_ended {runId : RunId} {stream : Stream Nat} (h : stream.ended = true) (turn : StreamTurn) :
    runStreamTurn kind calls runId stream turn = stream := by
  rw [runStreamTurn, if_pos h]

theorem runStreamTurn_fails {runId : RunId} {cursor : Nat} {sent : List Sse} {turn : StreamTurn}
    (h : turn.fails = true) :
    runStreamTurn kind calls runId ⟨cursor, sent, false⟩ turn = ⟨cursor, sent, true⟩ := by
  rw [runStreamTurn, if_neg Bool.false_ne_true, if_pos h]

/-- A turn whose read finds the log, at the cursor or past it: it sends a page, and ends the stream when the client is
gone or the log ended at what it sent. -/
theorem runStreamTurn_read {runId : RunId} {cursor : Nat} (sent : List Sse) {turn : StreamTurn} {run : StoredRun}
    (hread : turn.fails = false) (hrun : ((backend kind).viewAt calls turn.read).runs runId = some run)
    (hcursor : cursor ≤ run.events.length) :
    ∃ ended, runStreamTurn kind calls runId ⟨cursor, sent, false⟩ turn =
        ⟨cursor + (((run.events.drop cursor).take pageSize).take turn.sends).length,
          sent ++ sentAfter runId cursor (((run.events.drop cursor).take pageSize).take turn.sends), ended⟩ ∧
      (ended = false → ((run.events.drop cursor).take pageSize).length ≤ turn.sends ∧
        hasEnded (((run.events.drop cursor).take pageSize).take turn.sends) = false) ∧
      (ended = true → pageSize ≤ turn.sends → turn.gone = false →
        hasEnded (run.events.take (cursor + (((run.events.drop cursor).take pageSize).take turn.sends).length)) =
          true) := by
  have hends := (Backend.sound_at (refines kind) calls turn.read).ends runId run hrun
  have hpage : runPage kind ((backend kind).state calls turn.read) runId (cursor - 1) (pageSize + 1) =
      some { run with events := (run.events.drop (cursor - 1)).take (pageSize + 1) } := by
    rw [runPage_at, LogStore.runPage, hrun, Option.map_some]
  have hrest : EndsAtTerminal ((run.events.drop cursor).take pageSize) := by
    intro i event hi hend
    obtain ⟨hlt, hevent⟩ := List.getElem?_eq_some_iff.mp hi
    rw [List.getElem_take, List.getElem_drop] at hevent
    rw [List.length_take, List.length_drop] at hlt ⊢
    have hlast := hends (cursor + i) event (List.getElem?_eq_some_iff.mpr ⟨by omega, hevent⟩) hend
    omega
  -- The events of the page past the one before the cursor.
  have hdropped : (if cursor > 0 then ((run.events.drop (cursor - 1)).take (pageSize + 1)).drop 1
      else (run.events.drop (cursor - 1)).take (pageSize + 1)).take pageSize =
        (run.events.drop cursor).take pageSize := by
    by_cases hzero : cursor > 0
    · rw [if_pos hzero, List.drop_take, List.drop_drop, Nat.add_sub_cancel, Nat.sub_add_cancel hzero, List.take_take,
        Nat.min_self]
    · obtain rfl : cursor = 0 := by omega
      rw [if_neg hzero, List.take_take, Nat.min_eq_left (Nat.le_succ _)]
  simp only [runStreamTurn, hread, hpage, Bool.false_eq_true, if_false, hdropped, sendEvents_eq runId hrest]
  by_cases hseen : cursor > 0 ∧
    ((run.events.drop (cursor - 1)).take (pageSize + 1)).head?.any (isTerminal ·.payload) = true
  · -- The log ended at the cursor: nothing is past it.
    obtain ⟨hpos, hterminal⟩ := hseen
    rw [if_pos ⟨hpos, hterminal⟩]
    rw [List.head?_take, if_neg (Nat.succ_ne_zero _), List.head?_drop] at hterminal
    obtain ⟨event, hevent⟩ : ∃ event, run.events[cursor - 1]? = some event :=
      ⟨_, List.getElem?_eq_getElem (show cursor - 1 < run.events.length by omega)⟩
    rw [hevent, Option.any_some] at hterminal
    have hlast := hends _ event hevent hterminal
    have hend : cursor = run.events.length := by omega
    rw [List.drop_eq_nil_of_le hend.ge]
    refine ⟨true, by simp [sentAfter], by simp, fun _ _ _ => ?_⟩
    rw [List.take_nil, List.take_nil, List.length_nil, Nat.add_zero, hend, List.take_length]
    exact List.any_eq_true.mpr ⟨event, List.mem_of_getElem? hevent, hterminal⟩
  · rw [if_neg hseen]
    by_cases hwaits : cursor + (((run.events.drop cursor).take pageSize).take turn.sends).length - cursor < pageSize ∧
        turn.gone = true
    · rw [if_pos hwaits]
      exact ⟨true, rfl, by simp, fun _ _ hgone => absurd hgone (ne_false_of_eq_true hwaits.2)⟩
    · rw [if_neg hwaits]
      refine ⟨_, rfl, fun hgoing => ?_, fun hended hsends _ => ?_⟩
      · obtain ⟨hall, hnone⟩ := Bool.or_eq_false_iff.mp hgoing
        exact ⟨Nat.le_of_not_lt (of_decide_eq_false hall), hnone⟩
      · have hall : ((run.events.drop cursor).take pageSize).length ≤ turn.sends :=
          (List.length_take_le ..).trans hsends
        rw [decide_eq_false (Nat.not_lt.mpr hall), Bool.false_or, List.take_of_length_le hall] at hended
        have htaken : (run.events.drop cursor).take ((run.events.drop cursor).take pageSize).length =
            (run.events.drop cursor).take pageSize := by
          rw [List.take_eq_take_iff, List.length_take, Nat.min_assoc, Nat.min_self]
        rw [List.take_of_length_le hall, List.take_add, htaken, hasEnded, List.any_append]
        exact Bool.or_eq_true_iff.mpr (.inr hended)

/-- What a stream of run `runId` after `n` events has sent by a moment: the events that follow in its log, and a
terminal one only as the last, which ends it. -/
structure Following (kind : StoreKind) (calls : Nat → (backend kind).Call) (runId : RunId) (n now : Nat)
    (stream : Stream Nat) (run : StoredRun) : Prop where
  stored : ((backend kind).viewAt calls now).runs runId = some run
  cursor : stream.cursor = n + stream.sent.length
  reached : n + stream.sent.length ≤ run.events.length
  sent : stream.sent = sentAfter runId n ((run.events.drop n).take stream.sent.length)
  going : stream.ended = false → hasEnded ((run.events.drop n).take stream.sent.length) = false

theorem Following.later {runId : RunId} {n now later : Nat} {stream : Stream Nat} {run : StoredRun}
    (h : Following kind calls runId n now stream run) (hlater : now ≤ later) :
    ∃ grown, Following kind calls runId n later stream grown := by
  obtain ⟨more, hgrown⟩ := Backend.grows_of_le (refines kind) calls hlater runId run h.stored
  have hreached := h.reached
  have hdrop : ((run.events ++ more).drop n).take stream.sent.length = (run.events.drop n).take stream.sent.length := by
    rw [List.drop_append_of_le_length (by omega), List.take_append_of_le_length]
    rw [List.length_drop]
    omega
  refine ⟨_, hgrown, h.cursor, ?_, ?_, ?_⟩
  · show _ ≤ (run.events ++ more).length
    rw [List.length_append]
    omega
  · rw [hdrop]
    exact h.sent
  · rw [hdrop]
    exact h.going

/-- A turn keeps what was sent exact. -/
theorem Following.turn {runId : RunId} {n now : Nat} {stream : Stream Nat} {run : StoredRun}
    (h : Following kind calls runId n now stream run) {turn : StreamTurn} (hread : now ≤ turn.read) :
    ∃ grown, Following kind calls runId n turn.read (runStreamTurn kind calls runId stream turn) grown ∧
      (stream.ended = false → (runStreamTurn kind calls runId stream turn).ended = false →
        (runStreamTurn kind calls runId stream turn).sent.length =
          min (stream.sent.length + pageSize) (grown.events.length - n)) ∧
      (stream.ended = false → turn.fails = false → pageSize ≤ turn.sends → turn.gone = false →
        (runStreamTurn kind calls runId stream turn).ended = true →
        hasEnded grown.events = true ∧
          n + (runStreamTurn kind calls runId stream turn).sent.length = grown.events.length) := by
  obtain ⟨grown, hgrown⟩ := h.later hread
  refine ⟨grown, ?_⟩
  obtain ⟨cursor, sent, ended⟩ := stream
  cases ended with
  | true =>
      rw [runStreamTurn_ended rfl]
      exact ⟨hgrown, nofun, nofun⟩
  | false =>
      obtain rfl : cursor = n + sent.length := h.cursor
      by_cases hfails : turn.fails = true
      · rw [runStreamTurn_fails hfails]
        refine ⟨⟨hgrown.stored, rfl, hgrown.reached, hgrown.sent, nofun⟩, nofun, fun _ hnot => ?_⟩
        exact absurd hfails (ne_true_of_eq_false hnot)
      have hfails : turn.fails = false := eq_false_of_ne_true hfails
      have hreached : n + sent.length ≤ grown.events.length := hgrown.reached
      obtain ⟨ended, hturn, hgoing, hends⟩ := runStreamTurn_read sent hfails hgrown.stored hreached
      rw [hturn]
      generalize hpage : ((grown.events.drop (n + sent.length)).take pageSize).take turn.sends = page at hgoing hends ⊢
      have hlength : page.length = min turn.sends (min pageSize (grown.events.length - (n + sent.length))) := by
        rw [← hpage, List.length_take, List.length_take, List.length_drop]
      have hpage' : (grown.events.drop (n + sent.length)).take page.length = page := by
        conv_rhs => rw [← hpage, List.take_take]
        rw [List.take_eq_take_iff, hlength, List.length_drop]
        omega
      have hbefore : ((grown.events.drop n).take sent.length).length = sent.length := by
        rw [List.length_take, List.length_drop]
        omega
      have htaken : (grown.events.drop n).take (sent ++ sentAfter runId (n + sent.length) page).length =
          (grown.events.drop n).take sent.length ++ page := by
        rw [List.length_append, length_sentAfter, List.take_add, List.drop_drop, hpage']
      refine ⟨⟨hgrown.stored, ?_, ?_, ?_, fun hnot => ?_⟩, fun _ hnot => ?_, fun _ _ hsends hgone hended => ?_⟩
      · show n + sent.length + page.length = n + (sent ++ sentAfter runId (n + sent.length) page).length
        rw [List.length_append, length_sentAfter]
        omega
      · show n + (sent ++ sentAfter runId (n + sent.length) page).length ≤ grown.events.length
        rw [List.length_append, length_sentAfter]
        omega
      · show sent ++ sentAfter runId (n + sent.length) page = sentAfter runId n (List.take _ (grown.events.drop n))
        rw [htaken, sentAfter_append, hbefore]
        exact congrArg (· ++ _) hgrown.sent
      · rw [htaken, hasEnded, List.any_append]
        exact Bool.or_eq_false_iff.mpr ⟨hgrown.going rfl, (hgoing hnot).2⟩
      · have hall := (hgoing hnot).1
        rw [List.length_take, List.length_drop] at hall
        show (sent ++ sentAfter runId (n + sent.length) page).length = min (sent.length + pageSize)
          (grown.events.length - n)
        rw [List.length_append, length_sentAfter, hlength]
        omega
      · obtain ⟨event, hevent, hterminal⟩ := List.any_eq_true.mp (hends hended hsends hgone)
        obtain ⟨i, hlt, hi⟩ := List.getElem_of_mem hevent
        rw [List.length_take] at hlt
        rw [List.getElem_take] at hi
        have hlast := (Backend.sound_at (refines kind) calls turn.read).ends runId grown hgrown.stored i event
          (List.getElem?_eq_some_iff.mpr ⟨by omega, hi⟩) hterminal
        refine ⟨List.any_eq_true.mpr ⟨event, List.mem_of_mem_take hevent, hterminal⟩, ?_⟩
        rw [List.length_append, length_sentAfter]
        omega

/-- A stream of the run's log after `n` events, at any moment. -/
theorem following_stream {runId : RunId} {n start : Nat} {run : StoredRun} {turns : List StreamTurn}
    (hstored : ((backend kind).viewAt calls start).runs runId = some run) (hn : n ≤ run.events.length)
    (htimes : Chronological start turns) :
    ∃ grown, Following kind calls runId n (lastMoment start turns) (runStream kind calls runId n turns) grown := by
  have hturns : ∀ {now stream run}, Following kind calls runId n now stream run → Chronological now turns →
      ∃ grown, Following kind calls runId n (lastMoment now turns)
        (turns.foldl (runStreamTurn kind calls runId) stream) grown := by
    clear htimes
    induction turns with
    | nil => exact fun h _ => ⟨_, h⟩
    | cons turn rest ih =>
        rintro now stream run h ⟨hread, hlogs, hrest⟩
        obtain ⟨grown, hgrown, -⟩ := h.turn hread
        obtain ⟨later, hlater⟩ := hgrown.later hlogs
        exact ih hlater hrest
  refine hturns ⟨hstored, rfl, hn, ?_, fun _ => ?_⟩ htimes
  · rfl
  · rfl

theorem runStream_snoc (runId : RunId) (resume : Nat) (turns : List StreamTurn) (turn : StreamTurn) :
    runStream kind calls runId resume (turns ++ [turn]) =
      runStreamTurn kind calls runId (runStream kind calls runId resume turns) turn := by
  rw [runStream, List.foldl_append]
  rfl

/-- Turns after the end add nothing. -/
theorem runStream_ended {runId : RunId} {resume : Nat} {turns : List StreamTurn}
    (h : (runStream kind calls runId resume turns).ended = true) (more : List StreamTurn) :
    runStream kind calls runId resume (turns ++ more) = runStream kind calls runId resume turns := by
  induction more using List.reverseRecOn with
  | nil => rw [List.append_nil]
  | append_singleton more turn ih =>
      rw [← List.append_assoc, runStream_snoc, ih]
      exact runStreamTurn_ended h turn

/-- A terminal event sent is the last of what is sent, and ends the stream. -/
theorem Following.terminal_last {runId : RunId} {n now : Nat} {stream : Stream Nat} {run : StoredRun}
    (h : Following kind calls runId n now stream run) {id place : Nat} {event : Event}
    (hsent : Sse.event id runId place event ∈ stream.sent) (hterminal : isTerminal event.payload = true) :
    place = n + stream.sent.length ∧ stream.ended = true := by
  have hreached := h.reached
  rw [h.sent] at hsent
  obtain ⟨i, sent, hi, hsse⟩ := mem_sentAfter hsent
  obtain ⟨-, -, hplace, rfl⟩ := Sse.event.inj hsse
  have hmem := List.mem_of_getElem? hi
  obtain ⟨hlt, hevent⟩ := List.getElem?_eq_some_iff.mp hi
  rw [List.getElem_take, List.getElem_drop] at hevent
  rw [List.length_take, List.length_drop] at hlt
  have hlast := (Backend.sound_at (refines kind) calls now).ends runId run h.stored (n + i) event
    (List.getElem?_eq_some_iff.mpr ⟨by omega, hevent⟩) hterminal
  refine ⟨by omega, ?_⟩
  by_contra hgoing
  have hnone := h.going (eq_false_of_ne_true hgoing)
  exact absurd hterminal (List.any_eq_false.mp hnone event hmem)

/-- Streams lose and repeat nothing, in every history of either store. A stream of a principal's outbox after `n`
sends the principal's entries past `n` with no gap; a turn sends a reset, and nothing after it, exactly when an entry
not sent yet was pruned before its read; a stream that goes on has sent the rest of the outbox or a page of it, and
goes on while reads work, its client stays and nothing of the rest is pruned; ids increase over all the connections of
a client. A stream of a run after `n` events sends the events that follow, each with its place, a terminal one only as
the last; it too goes on with the rest or a page of it, to the end of an ended log. -/
theorem streams_exact (kind : StoreKind) (calls : Nat → (backend kind).Call) :
    (∀ owner n start turns, n ≤ ((backend kind).viewAt calls start).outbox.counts (principal owner) →
      Chronological start turns →
      (∃ entries, Outgoing kind calls owner n (lastMoment start turns)
        (outboxStream kind calls owner (some n) turns) entries) ∧
      ((outboxStream kind calls owner (some n) turns).ended = true → ∀ more,
        outboxStream kind calls owner (some n) (turns ++ more) = outboxStream kind calls owner (some n) turns)) ∧
    (∀ owner n start turns turn, n ≤ ((backend kind).viewAt calls start).outbox.counts (principal owner) →
      Chronological start (turns ++ [turn]) → (outboxStream kind calls owner (some n) turns).ended = false →
      (∀ through, .reset through ∈ (outboxStream kind calls owner (some n) (turns ++ [turn])).sent ↔
        turn.fails = false ∧ 0 < turn.sends ∧
          through = ((backend kind).viewAt calls turn.read).outbox.pruned (principal owner) ∧
          ∃ row ∈ (backend kind).issued calls turn.read, row.key = principal owner ∧
            n + (outboxStream kind calls owner (some n) turns).sent.length < row.seq ∧
            row ∉ ((backend kind).viewAt calls turn.read).outbox.rows) ∧
      ((outboxStream kind calls owner (some n) (turns ++ [turn])).ended = false →
        (outboxStream kind calls owner (some n) (turns ++ [turn])).sent.length =
          min ((outboxStream kind calls owner (some n) turns).sent.length + pageSize)
            (((backend kind).viewAt calls turn.read).outbox.counts (principal owner) - n)) ∧
      (turn.fails = false → pageSize ≤ turn.sends → turn.gone = false →
        ((backend kind).viewAt calls turn.read).outbox.pruned (principal owner) ≤
          n + (outboxStream kind calls owner (some n) turns).sent.length →
        (outboxStream kind calls owner (some n) (turns ++ [turn])).ended = false)) ∧
    (∀ owner resume start connections,
      (∀ n, resume = some n → n ≤ ((backend kind).viewAt calls start).outbox.counts (principal owner)) →
      Chronological start (connections.flatMap Session.turns) →
      ((sessions kind calls owner resume connections).map Sse.id).Pairwise (· < ·)) ∧
    (∀ runId n start run turns, ((backend kind).viewAt calls start).runs runId = some run → n ≤ run.events.length →
      Chronological start turns →
      (∃ grown, Following kind calls runId n (lastMoment start turns) (runStream kind calls runId n turns) grown) ∧
      (∀ id place event, .event id runId place event ∈ (runStream kind calls runId n turns).sent →
        isTerminal event.payload = true →
        place = n + (runStream kind calls runId n turns).sent.length ∧
          (runStream kind calls runId n turns).ended = true) ∧
      ((runStream kind calls runId n turns).ended = true → ∀ more,
        runStream kind calls runId n (turns ++ more) = runStream kind calls runId n turns)) ∧
    (∀ runId n start run turns turn, ((backend kind).viewAt calls start).runs runId = some run → n ≤ run.events.length →
      Chronological start (turns ++ [turn]) → (runStream kind calls runId n turns).ended = false →
      ∃ grown, ((backend kind).viewAt calls turn.read).runs runId = some grown ∧
        ((runStream kind calls runId n (turns ++ [turn])).ended = false →
          (runStream kind calls runId n (turns ++ [turn])).sent.length =
            min ((runStream kind calls runId n turns).sent.length + pageSize) (grown.events.length - n)) ∧
        (turn.fails = false → pageSize ≤ turn.sends → turn.gone = false →
          (runStream kind calls runId n (turns ++ [turn])).ended = true →
          hasEnded grown.events = true ∧
            n + (runStream kind calls runId n (turns ++ [turn])).sent.length = grown.events.length)) := by
  refine ⟨fun owner n start turns hn htimes => ⟨outgoing_stream hn htimes, outboxStream_ended⟩, ?_,
    fun owner resume start connections hresume htimes => (ids_sessions hresume htimes).1, ?_, ?_⟩
  · intro owner n start turns turn hn htimes hgoing
    obtain ⟨hturns, hread, hlogs, -⟩ := chronological_append.mp htimes
    obtain ⟨entries, hout⟩ := outgoing_stream hn hturns
    rw [outboxStream_snoc]
    exact ⟨hout.reset_iff hgoing hread hlogs, hout.progress hread hlogs, hout.stays hgoing hread hlogs⟩
  · intro runId n start run turns hrun hn htimes
    obtain ⟨grown, hgrown⟩ := following_stream hrun hn htimes
    exact ⟨⟨grown, hgrown⟩, fun id place event => hgrown.terminal_last, runStream_ended⟩
  · intro runId n start run turns turn hrun hn htimes hgoing
    obtain ⟨hturns, hread, -⟩ := chronological_append.mp htimes
    obtain ⟨run, hfollowing⟩ := following_stream hrun hn hturns
    obtain ⟨grown, hgrown, hprogress, hends⟩ := hfollowing.turn hread
    rw [runStream_snoc]
    exact ⟨grown, hgrown.stored, hprogress hgoing, hends hgoing⟩

end Proofs
end Gol
