import Vanguard.ChronosServer

/-! Lines and reads. The server takes every read for one command, so it executes the lines of
its client just where the reads carry them one by one. -/
namespace ChronosFraming

open Utf8Text FileSystems SeparatedWords StateMachines ChronosStore ChronosParser ChronosServer

/-- A line as the clients send it, without its newline. -/
structure CommandLine where
  text : Text
  newline : '\n' ∉ text
  visible : words isWhitespace text ≠ []

def stream (ls : List CommandLine) : Bytes := ls.flatMap fun l => encode (l.text ++ ['\n'])

/-- What TCP may make of a stream of lines, through the buffer of the server. -/
structure Delivery (ls : List CommandLine) (reads : List Bytes) : Prop where
  whole : reads.flatten = stream ls
  nonempty : ∀ r ∈ reads, r ≠ []
  buffer : ∀ r ∈ reads, r.length ≤ 512

def exchanges (envs : ℕ → Environment) : List Bytes → List Exchange
  | [] => []
  | r :: rs => ⟨.ok r, envs 0, none⟩ :: exchanges (fun i => envs (i + 1)) rs

def perform (envs : ℕ → Environment) (db : Db) : List Command → Db × Bytes
  | [] => (db, [])
  | c :: cs =>
    let (db, response) := execute db (envs 0) c
    let (db, output) := perform (fun i => envs (i + 1)) db cs
    (db, encode response ++ output)

def lineCommands (ls : List CommandLine) : List Command := ls.filterMap fun l => parse l.text

/-- The words of the reads up to the first read without any; on that one the parser panics. -/
def readWords (reads : List Bytes) : List (List Text) :=
  (reads.map fun r => words isWhitespace (decodeLossy r)).takeWhile fun ws => !ws.isEmpty

/-- Two lists of words with one meaning: the verbs agree up to case, and so do the arguments
where the command has any; or neither is a command. -/
def Alike : List Text → List Text → Prop
  | v :: as, w :: bs =>
    toUppercase v = toUppercase w ∧
      (as = bs ∨ toUppercase v = "PING".toList ∨ toUppercase v = "COMPACT".toList) ∨
    ¬ Accepted v as ∧ ¬ Accepted w bs
  | _, _ => False

/-- The reads carry the lines one by one. -/
def Aligned (ls : List CommandLine) (reads : List Bytes) : Prop :=
  List.Forall₂ Alike (readWords reads) (ls.map fun l => words isWhitespace l.text)

def FollowsLines (db : Db) (envs : ℕ → Environment) (ls : List CommandLine)
    (reads : List Bytes) : Prop :=
  let s := handleClient db (exchanges envs reads)
  s.executed = lineCommands ls ∧ (s.db, s.output) = perform envs db (lineCommands ls)

theorem join_injective {as bs : List Text} (ha : ∀ u ∈ as, IsWord isWhitespace u)
    (hb : ∀ u ∈ bs, IsWord isWhitespace u) (h : join ' ' as = join ' ' bs) : as = bs := by
  have hspace : isWhitespace ' ' = true := by decide
  rw [← words_join hspace ha, h, words_join hspace hb]

theorem alike_of_says {v w : Text} {as bs : List Text} (ha : ∀ u ∈ as, IsWord isWhitespace u)
    (hb : ∀ u ∈ bs, IsWord isWhitespace u) {c d : Command} (hc : Says v as c) (hd : Says w bs d)
    (h : c = d) : Alike (v :: as) (w :: bs) := by
  cases hc with
  | set k x xs hv =>
    cases hd with
    | set j y ys hw =>
      rw [Command.set.injEq] at h
      obtain ⟨rfl, hjoin⟩ := h
      have hargs : x :: xs = y :: ys := by
        apply join_injective _ _ hjoin
        · intro u hu
          exact ha u (List.mem_cons_of_mem _ hu)
        · intro u hu
          exact hb u (List.mem_cons_of_mem _ hu)
      exact Or.inl ⟨hv.trans hw.symm, Or.inl (congrArg (k :: ·) hargs)⟩
    | _ => cases h
  | get k hv =>
    cases hd with
    | get j hw =>
      cases h
      exact Or.inl ⟨hv.trans hw.symm, Or.inl rfl⟩
    | _ => cases h
  | del k hv =>
    cases hd with
    | del j hw =>
      cases h
      exact Or.inl ⟨hv.trans hw.symm, Or.inl rfl⟩
    | _ => cases h
  | ping as hv =>
    cases hd with
    | ping bs hw => exact Or.inl ⟨hv.trans hw.symm, Or.inr (Or.inl hv)⟩
    | _ => cases h
  | compact as hv =>
    cases hd with
    | compact bs hw => exact Or.inl ⟨hv.trans hw.symm, Or.inr (Or.inr hv)⟩
    | _ => cases h
  | unknown as hv =>
    cases hd with
    | unknown bs hw => exact Or.inr ⟨hv, hw⟩
    | _ => cases h

theorem commandOf_of_alike {v w : Text} {as bs : List Text} (h : Alike (v :: as) (w :: bs)) :
    commandOf v as = commandOf w bs := by
  rcases h with ⟨hverb, hargs⟩ | ⟨hv, hw⟩
  · rcases hargs with rfl | hping | hcompact
    · simp only [commandOf, hverb]
    · have hw := hverb.symm.trans hping
      simp [commandOf, hping, hw]
    · have hw := hverb.symm.trans hcompact
      simp [commandOf, hcompact, hw]
  · rw [commandOf_unknown hv, commandOf_unknown hw]

theorem meaning_eq_iff {ws us : List Text} (hw : ∀ u ∈ ws, IsWord isWhitespace u)
    (hu : ∀ u ∈ us, IsWord isWhitespace u) (hne : ws ≠ []) (hne' : us ≠ []) :
    meaning ws = meaning us ↔ Alike ws us := by
  cases ws with
  | nil => exact absurd rfl hne
  | cons v as =>
    cases us with
    | nil => exact absurd rfl hne'
    | cons w bs =>
      simp only [meaning, Option.some.injEq]
      constructor
      · intro h
        apply alike_of_says _ _ (says_commandOf v as) (says_commandOf w bs) h
        · intro u hm
          exact hw u (List.mem_cons_of_mem _ hm)
        · intro u hm
          exact hu u (List.mem_cons_of_mem _ hm)
      · intro h
        exact commandOf_of_alike h

def Wordy (wss : List (List Text)) : Prop :=
  ∀ ws ∈ wss, ws ≠ [] ∧ ∀ u ∈ ws, IsWord isWhitespace u

theorem Wordy.filterMap_cons {ws : List Text} {wss : List (List Text)} (h : Wordy (ws :: wss)) :
    ∃ c, meaning ws = some c ∧ (ws :: wss).filterMap meaning = c :: wss.filterMap meaning := by
  cases ws with
  | nil => exact absurd rfl (h [] List.mem_cons_self).1
  | cons v as => exact ⟨commandOf v as, rfl, rfl⟩

theorem Wordy.tail {ws : List Text} {wss : List (List Text)} (h : Wordy (ws :: wss)) :
    Wordy wss := fun us hus => h us (List.mem_cons_of_mem _ hus)

theorem commands_eq_iff {wss uss : List (List Text)} (hw : Wordy wss) (hu : Wordy uss) :
    wss.filterMap meaning = uss.filterMap meaning ↔ List.Forall₂ Alike wss uss := by
  induction wss generalizing uss with
  | nil =>
    cases uss with
    | nil => simp
    | cons us uss =>
      obtain ⟨d, _, hd⟩ := hu.filterMap_cons
      simp [hd]
  | cons ws wss ih =>
    obtain ⟨c, hc, hcs⟩ := hw.filterMap_cons
    cases uss with
    | nil => simp [hcs]
    | cons us uss =>
      obtain ⟨d, hd, hds⟩ := hu.filterMap_cons
      have hhead := meaning_eq_iff (hw ws List.mem_cons_self).2 (hu us List.mem_cons_self).2
        (hw ws List.mem_cons_self).1 (hu us List.mem_cons_self).1
      rw [hc, hd, Option.some.injEq] at hhead
      rw [hcs, hds, List.cons.injEq, List.forall₂_cons, hhead, ih hw.tail hu.tail]

theorem readWords_cons (r : Bytes) (rs : List Bytes) :
    readWords (r :: rs) =
      if words isWhitespace (decodeLossy r) = [] then []
      else words isWhitespace (decodeLossy r) :: readWords rs := by
  rw [readWords, List.map_cons, List.takeWhile_cons]
  cases words isWhitespace (decodeLossy r) with
  | nil => rfl
  | cons v as => rfl

theorem wordy_readWords (reads : List Bytes) : Wordy (readWords reads) := by
  intro ws hws
  have hne := List.mem_takeWhile_imp hws
  obtain ⟨r, _, rfl⟩ := List.mem_map.mp ((List.takeWhile_subset _) hws)
  exact ⟨by simpa using hne, fun u hu => isWord_of_mem_words hu⟩

theorem wordy_lines (ls : List CommandLine) :
    Wordy (ls.map fun l => words isWhitespace l.text) := by
  intro ws hws
  obtain ⟨l, _, rfl⟩ := List.mem_map.mp hws
  exact ⟨l.visible, fun u hu => isWord_of_mem_words hu⟩

theorem run_exchanges {reads : List Bytes} (hne : ∀ r ∈ reads, r ≠ []) (s : Session)
    (envs : ℕ → Environment) (hs : s.ending = none) :
    let t := run loopBody s (exchanges envs reads)
    let cs := (readWords reads).filterMap meaning
    t.executed = s.executed ++ cs ∧
      (t.db, t.output) = ((perform envs s.db cs).1, s.output ++ (perform envs s.db cs).2) := by
  induction reads generalizing s envs with
  | nil => simp [exchanges, readWords, perform]
  | cons r rs ih =>
    obtain ⟨db, executed, output, ending⟩ := s
    subst hs
    have hr : r ≠ [] := hne r List.mem_cons_self
    rw [exchanges, run_cons, readWords_cons]
    by_cases hw : words isWhitespace (decodeLossy r) = []
    · rw [loopBody_panicked hr ((parse_eq_none_iff _).mpr hw), run_ended rfl, if_pos hw]
      simp [perform]
    · obtain ⟨v, as, hva⟩ := List.exists_cons_of_ne_nil hw
      have hparse : parse (decodeLossy r) = some (commandOf v as) := by
        rw [parse_words, hva]
        rfl
      have hstep : loopBody ⟨db, executed, output, none⟩ ⟨.ok r, envs 0, none⟩ =
          ⟨(execute db (envs 0) (commandOf v as)).1, executed ++ [commandOf v as],
            output ++ encode (execute db (envs 0) (commandOf v as)).2, none⟩ :=
        loopBody_answered hr hparse
      have hrest := ih (fun r hr => hne r (List.mem_cons_of_mem _ hr)) _
        (fun i => envs (i + 1)) (congrArg Session.ending hstep)
      have hcommands : ((v :: as) :: readWords rs).filterMap meaning =
          commandOf v as :: (readWords rs).filterMap meaning := rfl
      rw [if_neg hw, hva, hcommands]
      simp only [hstep, perform] at hrest ⊢
      simpa [List.append_assoc] using hrest

theorem lineCommands_eq (ls : List CommandLine) :
    lineCommands ls = (ls.map fun l => words isWhitespace l.text).filterMap meaning := by
  rw [lineCommands, List.filterMap_map]
  congr 1
  funext l
  exact parse_words l.text

/-- The connection follows the lines just where its reads carry them one by one, and what it
does is then the same for every such delivery. -/
theorem follows_lines_iff_aligned (ls : List CommandLine) (reads : List Bytes)
    (h : Delivery ls reads) (db : Db) (envs : ℕ → Environment) :
    (FollowsLines db envs ls reads ↔ Aligned ls reads) ∧
      ∀ others, Delivery ls others → Aligned ls reads → Aligned ls others →
        (handleClient db (exchanges envs reads)).db =
            (handleClient db (exchanges envs others)).db ∧
          (handleClient db (exchanges envs reads)).output =
            (handleClient db (exchanges envs others)).output := by
  have follows : ∀ rs, Delivery ls rs → (FollowsLines db envs ls rs ↔ Aligned ls rs) := by
    intro rs hrs
    obtain ⟨hexecuted, hresult⟩ := run_exchanges hrs.nonempty ⟨db, [], [], none⟩ envs rfl
    rw [Aligned, ← commands_eq_iff (wordy_readWords rs) (wordy_lines ls), ← lineCommands_eq]
    constructor
    · intro hf
      exact hexecuted.symm.trans hf.1
    · intro hc
      rw [hc] at hexecuted hresult
      exact ⟨hexecuted, hresult⟩
  refine ⟨follows reads h, ?_⟩
  intro others ho hr hs
  have hboth := ((follows reads h).mpr hr).2.trans ((follows others ho).mpr hs).2.symm
  exact Prod.mk.inj hboth

theorem alike_refl {ws : List Text} (h : ws ≠ []) : Alike ws ws := by
  cases ws with
  | nil => exact absurd rfl h
  | cons v as => exact Or.inl ⟨rfl, Or.inl rfl⟩

theorem aligned_whole_lines (ls : List CommandLine) :
    Aligned ls (ls.map fun l => encode (l.text ++ ['\n'])) := by
  induction ls with
  | nil => exact List.Forall₂.nil
  | cons l ls ih =>
    have hwords : words isWhitespace (decodeLossy (encode (l.text ++ ['\n']))) =
        words isWhitespace l.text := by
      rw [decodeLossy_encode]
      exact words_snoc_sep (by decide)
    rw [Aligned, List.map_cons, readWords_cons, hwords, if_neg l.visible]
    exact List.Forall₂.cons (alike_refl l.visible) ih

def pingLine : CommandLine := ⟨"PING".toList, by decide, by decide⟩
def setLine : CommandLine := ⟨"SET k ab".toList, by decide, by decide⟩

theorem follows_lines_iff_aligned_ping_set :
    let envs : ℕ → Environment := fun _ => healthy LastWriterMaps.someTraversal
    let reads := [encode "PING\n".toList, encode "SET k ab\n".toList]
    ∃ db₀, boot emptyFileSystem = some db₀ ∧ FollowsLines db₀ envs [pingLine, setLine] reads := by
  refine ⟨_, rfl, ?_⟩
  apply (follows_lines_iff_aligned _ _ ⟨?_, ?_, ?_⟩ _ _).1.mpr
  · exact aligned_whole_lines [pingLine, setLine]
  all_goals decide

/-- Two lines in one read are one command, and a line in two reads is two. -/
theorem merged_and_split_lines_misread :
    let envs : ℕ → Environment := fun _ => healthy LastWriterMaps.someTraversal
    ∃ db₀, boot emptyFileSystem = some db₀ ∧
      (let reads := [encode "PING\nPING\n".toList]
      Delivery [pingLine, pingLine] reads ∧ ¬ FollowsLines db₀ envs [pingLine, pingLine] reads) ∧
      (let reads := [encode "SET k a".toList, encode "b\n".toList]
      Delivery [setLine] reads ∧ ¬ FollowsLines db₀ envs [setLine] reads ∧
        (handleClient db₀ (exchanges envs reads)).db.engine.get ['k'] = some ['a']) := by
  refine ⟨_, rfl, ⟨⟨?_, ?_, ?_⟩, fun hf => ?_⟩, ⟨⟨?_, ?_, ?_⟩, fun hf => ?_, ?_⟩⟩
  · decide
  · decide
  · decide
  · exact absurd hf.1 (by decide)
  · decide
  · decide
  · decide
  · exact absurd hf.1 (by decide)
  · decide

end ChronosFraming
