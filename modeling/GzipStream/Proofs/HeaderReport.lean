import GzipStream.Command.MemoryHost
import GzipStream.Command.Run
import GzipStream.Proofs.Concatenation
import GzipStream.Proofs.MemberReads

/-!
# The report of the header command

The command reports the header that it finds behind its first read, so it names the first member
that has bytes, and the last one where none has.
-/

namespace GzipStream

open GzipMember (joined Deals)

namespace GzipMember

variable {ms : List GzipMember}

/-- The member that the first bytes are from. -/
theorem Deals.first_read {bs : Bytes} {title : Except Error Header} {reads : List TitledRead}
    (h : Deals [] ms ((bs, title) :: reads)) :
    ∃ m, ms.find? (fun m => m.payload ≠ []) = some m ∧ title = .ok m.header := by
  induction ms with
  | nil => cases h.2
  | cons m ms ih =>
    obtain ⟨chunks, later, hpayload, hchunks, hreads, hlater⟩ := h
    cases chunks with
    | nil =>
      have hnil : m.payload = [] := hpayload.symm
      rw [List.map_nil, List.nil_append] at hreads
      rw [← hreads] at hlater
      obtain ⟨m', hm', htitle⟩ := ih hlater
      exact ⟨m', by rw [List.find?_cons_of_neg (by simp [hnil])]; exact hm', htitle⟩
    | cons c chunks =>
      cases hreads
      have hne : m.payload ≠ [] := by
        rw [← hpayload]
        exact List.append_ne_nil_of_left_ne_nil (hchunks bs List.mem_cons_self) _
      exact ⟨m, List.find?_cons_of_pos (by simpa using hne), rfl⟩

/-- Without bytes there is no such member. -/
theorem Deals.no_read (h : Deals [] ms []) : ms.find? (fun m => m.payload ≠ []) = none := by
  induction ms with
  | nil => rfl
  | cons m ms ih =>
    obtain ⟨chunks, later, hpayload, hchunks, hreads, hlater⟩ := h
    obtain ⟨hmap, rfl⟩ := List.append_eq_nil_iff.mp hreads.symm
    rw [List.map_eq_nil_iff.mp hmap] at hpayload
    have hnil : m.payload = [] := hpayload.symm
    rw [List.find?_cons_of_neg (by simp [hnil])]
    exact ih hlater

/-- What the members hold. -/
theorem archive (ms : List GzipMember) {f : Framing} (hf : f.hasHeader = true) :
    Archive f (joined ms) (ms.flatMap payload) ms.length .clean := by
  induction ms with
  | nil => exact .empty
  | cons m ms ih => exact .member (joined_cons m ms) (m.takes hf) ih

end GzipMember

namespace Reader

/-- A reader that keeps headers, in front of all members. -/
theorem at_start (ms : List GzipMember) {source : Source} (hs : source.Supplies (joined ms))
    {o : Options} (ho : o.validate = .ok ()) (hformat : o.format = .gzip)
    (hcapture : o.captureHeader = true) : ∃ r, withOptions source o = .ok r ∧
      r.At .auto (joined ms) (ms.getLast?.map GzipMember.header) ms none [] [] [] (joined ms) ∧
      r.weight (joined ms) < readTurns (joined ms).length := by
  obtain ⟨r, hr, hreading, hweight⟩ := reading_start hs ho
  have hframing : o.decodeFraming = .auto := by rw [Options.decodeFraming, hformat]
  have hr' : withOptions source o = .ok
      { source := source, engine := { Inflater.new .auto with capture := true },
        options := o, capture := true } := by
    simp only [withOptions, Inflater.ofOptions, withEngine, ho, bind, Except.bind,
      DecodeEngine.captureHeader, Inflater.captureHeader, hframing, hcapture, if_true]
    rfl
  obtain rfl : r = _ := Except.ok.inj (hr.symm.trans hr')
  rw [hframing] at hreading
  refine ⟨_, hr', ⟨hreading, rfl, Inflater.titled_start rfl none, rfl, ?_⟩, hweight⟩
  rw [Option.or_none]

/-- A reader of complete data gives what it has not given, and then closes well. -/
theorem Reading.readToEnd_spec {f : Framing} {data finished before output coming out : Bytes}
    {members turns reads room : Nat} {r : Reader Inflater}
    (h : r.Reading f data finished before output coming) (hroom : 0 < room)
    (ht : r.weight coming < turns) (hr : r.weight coming < reads)
    (ha : Archive f data out members .clean) :
    ∃ rs r', r.titledReads turns (fun _ => room) reads 0 = some (rs, none, r') ∧
      r.readToEnd turns reads room #[] = some ((rs.flatMap Prod.fst).toArray, none, r') ∧
      finished ++ output ++ rs.flatMap Prod.fst = out ∧
      r'.close.1 = .ok () ∧ r'.members = members ∧ r'.totalIn = data.length := by
  obtain ⟨got, failure, r', hdrain, hd⟩ := h.drain_spec (fun _ => hroom) reads 0 ht hr
  cases hd with
  | part archive isPrefix error_eq =>
    obtain ⟨-, -, rfl⟩ := ha.unique archive
    cases error_eq
  | all archive totalIn_eq totalOut_eq close_eq =>
    obtain ⟨rfl, rfl, -⟩ := ha.unique archive
    rw [drain_eq_titledReads] at hdrain
    obtain ⟨⟨rs, failure, r₁⟩, hreads, heq⟩ := Option.map_eq_some_iff.mp hdrain
    cases heq
    refine ⟨rs, r', hreads, ?_, rfl, close_eq, rfl, totalIn_eq⟩
    rw [readToEnd_eq_drain _ _ 0, drain_eq_titledReads, hreads]
    rfl

/-- Behind the first read the header is that of the first member with bytes, or of the last one. -/
theorem At.first_read {ms : List GzipMember} (hne : ms ≠ []) {f : Framing}
    (hf : f.hasHeader = true) {r : Reader Inflater} {turns room room' : Nat}
    (h : r.At f (joined ms) (ms.getLast?.map GzipMember.header) ms none [] [] [] (joined ms))
    (hroom : 0 < room) (hroom' : 0 < room') (ht : r.weight (joined ms) < turns) :
    ∃ first r₁ rest r₂, r.read turns room = some (.ok first, r₁) ∧
      r₁.header = .ok ((ms.find? fun m => m.payload ≠ []).getD (ms.getLast hne)).header ∧
      r₁.readToEnd turns turns room' #[] = some (rest, none, r₂) ∧
      first ++ rest.toList = ms.flatMap GzipMember.payload ∧
      r₂.close.1 = .ok () ∧ r₂.members = ms.length ∧ r₂.totalIn = (joined ms).length := by
  obtain ⟨result, r₁, hread, hdelivered⟩ := h.reading.read_spec hroom ht
  have harchive := GzipMember.archive ms hf
  cases h.read hf hroom hread with
  | @some _ _ _ bs _ _ _ _ place ne_nil deals =>
    cases hdelivered with
    | none => exact absurd rfl ne_nil
    | @some _ _ _ _ coming _ reading given_eq _ less =>
      have hless : r₁.weight coming < turns := by omega
      obtain ⟨rs, r₂, hreads, hend, hout, hcounts⟩ :=
        reading.readToEnd_spec hroom' hless hless harchive
      obtain ⟨-, hdeals, -⟩ := place.titledReads hf (fun _ => hroom') hreads
      obtain ⟨m, hm, hheader⟩ := (deals _ hdeals).first_read
      rw [← given_eq] at hout
      exact ⟨bs, r₁, _, r₂, hread, by rw [hm]; exact hheader, hend, hout, hcounts⟩
  | none place deals =>
    cases hdelivered with
    | some _ _ ne_nil => exact absurd rfl ne_nil
    | none reading pending_eq =>
      have hless : r₁.weight [] < turns := by
        rw [weight, pending_eq, reading.along.owing_start, List.append_nil, List.length_nil,
          Nat.zero_mul]
        omega
      obtain ⟨rs, r₂, -, hend, hout, hcounts⟩ :=
        reading.readToEnd_spec hroom' hless hless harchive
      refine ⟨[], r₁, _, r₂, hread, ?_, hend, hout, hcounts⟩
      rw [deals.no_read]
      refine place.header_eq ?_
      rw [place.titled.header_of_nil, Option.getD_none]
      exact place.last_eq.trans (by rw [List.getLast?_eq_some_getLast hne]; rfl)

theorem close_counts (r : Reader Inflater) :
    r.close.2.members = r.members ∧ r.close.2.totalIn = r.totalIn := by
  unfold close release
  simp only
  split
  · exact ⟨rfl, rfl⟩
  · exact ⟨rfl, rfl⟩

end Reader

namespace Command

open Reader

/-- What the header command finds in a file of members. -/
def reportOf (path : String) (ms : List GzipMember) (hne : ms ≠ []) : HeaderReport where
  file := path
  header := ((ms.find? fun m => m.payload ≠ []).getD (ms.getLast hne)).header
  members := ms.length
  compressedSize := (joined ms).length
  uncompressedSize := (ms.flatMap GzipMember.payload).length

theorem inspectSource_joined (path : String) (ms : List GzipMember) (hne : ms ≠ []) :
    inspectSource path [.data (joined ms)] = .ok (reportOf path ms hne) := by
  have hturns : readTurns (joined ms).length ≤
      readTurns (sourceSize [.data (joined ms)] + [SourceItem.data (joined ms)].length) :=
    Nat.mul_le_mul_left _ (Nat.succ_le_succ (Nat.le_succ _))
  generalize hn : readTurns (sourceSize [.data (joined ms)] +
    [SourceItem.data (joined ms)].length) = turns at hturns
  obtain ⟨r, hr, hat, hweight⟩ := at_start ms (Source.supplies_singleton (joined ms))
    (o := {}) rfl rfl rfl
  have hless := Nat.lt_of_lt_of_le hweight hturns
  obtain ⟨first, r₁, rest, r₂, hread, hheader, hend, hout, hclose, hmembers, htotal⟩ :=
    hat.first_read hne rfl (show 0 < inspectSize by decide) (show 0 < copySize by decide) hless
  obtain ⟨hmembers', htotal'⟩ := r₂.close_counts
  rcases hclosed : r₂.close with ⟨answer, r₃⟩
  rw [hclosed] at hclose hmembers' htotal'
  cases hclose
  simp only [inspectSource, hr, hn, hread, hheader, hend, hclosed]
  rw [hmembers', htotal', hmembers, htotal, ← Array.length_toList, ← List.length_append, hout]
  rfl

/-- A system behind what `before` did: the file can be opened, which makes it `opened`, and then its
bytes can be read, which makes it `after`. -/
structure Serves {m : Type → Type} [Monad m] [Host m] (path : String) (bs : Bytes)
    (before opened after : m Unit) : Prop where
  opens : (before >>= fun _ => Host.openFile path) = opened >>= fun _ => pure (.ok ())
  gives : (opened >>= fun _ => Host.contents path) = after >>= fun _ => pure (.ok bs)

section
variable {m : Type → Type} [Monad m] [LawfulMonad m]

/-- What follows a computation goes on from its answer. -/
theorem bind_of_answers {α β : Type} {before after : m Unit} {x : m α} {a : α}
    (h : (before >>= fun _ => x) = after >>= fun _ => pure a) (next : α → m β) :
    (before >>= fun _ => x >>= next) = after >>= fun _ => next a := by
  rw [← bind_assoc, h, bind_assoc]
  simp only [pure_bind]

/-- On any system that has a file of members, the header command prints its report, and does nothing
else. -/
theorem runHeader_joined [Host m] {path : String} {ms : List GzipMember} {before opened after : m Unit}
    (hne : ms ≠ []) (json : Bool) (h : Serves path (joined ms) before opened after) :
    (before >>= fun _ => runHeader path json) =
      after >>= fun _ => Host.print (utf8Bytes (if json then (reportOf path ms hne).json
        else (reportOf path ms hne).text)) >>= fun _ => pure none := by
  have hsource : (opened >>= fun _ => fileSource path) =
      after >>= fun _ => pure [.data (joined ms)] := bind_of_answers h.gives _
  refine (bind_of_answers (x := openInput (some path)) h.opens _).trans ?_
  refine (bind_of_answers hsource _).trans ?_
  simp only [inspectSource_joined path ms hne]

end

/-- A file that can be read can be opened. -/
theorem openFile_of_contents {s : MemoryHost} {path : String} {bs : Bytes}
    (h : s.contents path = .ok bs) : s.openFile path = .ok () := by
  simp only [MemoryHost.contents, MemoryHost.openFile, bind, Except.bind] at h ⊢
  cases hplace : s.resolve path with
  | error e =>
    rw [hplace] at h
    cases h
  | ok place =>
    rw [hplace] at h
    have hfile : s.isFile place = true := by
      simp only at h
      unfold MemoryHost.isFile
      cases hdevice : MemoryHost.device? place with
      | some d => rfl
      | none =>
        cases hstored : s.file? place with
        | some file => rfl
        | none =>
          simp only [hdevice, hstored] at h
          split at h <;> cases h
    simp only [hfile, Bool.true_or, if_true]

/-- In memory a file that is there is served, and nothing changes. -/
theorem serves_memory {s : MemoryHost} {path : String} {bs : Bytes} (h : s.contents path = .ok bs) :
    Serves (m := StateM MemoryHost) path bs (set s) (set s) (set s) where
  opens := by
    funext s₀
    exact congrArg (·, s) (openFile_of_contents h)
  gives := by
    funext s₀
    exact congrArg (·, s) h

end Command

/-- Over the members `ms`, dealt out in any pieces and read in any sizes, no read gives bytes of two
members, behind each read the header is that of the member its bytes are from, and at the end of
data that of the last. So the header command shows the first member that has bytes, or the last one
if none has, with the number of members and both sizes; on any system that opens the file and gives
its bytes, this is all that it prints and does. -/
theorem reads_keep_to_members (ms : List GzipMember) (hne : ms ≠ []) :
    (∀ o : Options, o.validate = .ok () → o.format = .gzip → o.captureHeader = true →
      ∀ s : Reader.Schedule (joined ms), ∃ r, Reader.withOptions (s.pieces.map .data) o = .ok r ∧
        ∀ turns reads, readTurns (joined ms).length ≤ turns → readTurns (joined ms).length ≤ reads →
          ∃ rs r', r.titledReads turns s.sizes reads 0 = some (rs, none, r') ∧ Deals [] ms rs ∧
            r'.header = .ok (ms.getLast hne).header) ∧
    ∀ (m : Type → Type) [Monad m] [LawfulMonad m] [Command.Host m] (path : String) (json : Bool)
        (before opened after : m Unit),
      Command.Serves path (joined ms) before opened after →
      let report : Command.HeaderReport :=
        { file := path
          header := ((ms.find? fun m => m.payload ≠ []).getD (ms.getLast hne)).header
          members := ms.length
          compressedSize := (joined ms).length
          uncompressedSize := (ms.flatMap GzipMember.payload).length }
      (before >>= fun _ => Command.runHeader path json) =
        after >>= fun _ => Command.Host.print (utf8Bytes (if json then report.json else report.text))
          >>= fun _ => pure none := by
  constructor
  · intro o ho hformat hcapture s
    have hsupplies := Source.supplies_map s.pieces_ne_nil
    rw [s.flatten_eq] at hsupplies
    obtain ⟨r, hr, hat, hweight⟩ := Reader.at_start ms hsupplies ho hformat hcapture
    refine ⟨r, hr, fun turns reads hturns hreads => ?_⟩
    obtain ⟨got, failure, r', hdrain, -⟩ := hat.reading.drain_spec s.sizes_pos reads 0
      (Nat.lt_of_lt_of_le hweight hturns) (Nat.lt_of_lt_of_le hweight hreads)
    rw [Reader.drain_eq_titledReads] at hdrain
    obtain ⟨⟨rs, failure, r₁⟩, htitled, -⟩ := Option.map_eq_some_iff.mp hdrain
    obtain ⟨rfl, hdeals, hlast⟩ := hat.titledReads rfl s.sizes_pos htitled
    refine ⟨rs, r₁, htitled, hdeals, hlast _ ?_⟩
    rw [List.getLast?_eq_some_getLast hne]
    rfl
  · intro m _ _ _ path json before opened after hserves
    exact Command.runHeader_joined hne json hserves

/-- A member without bytes and one of a single byte, under names of their own. -/
def namedEmpty : GzipMember where
  head := [0x1f, 0x8b, 8, 8, 0, 0, 0, 0, 0, 3, 97, 0]
  body := emptyStored
  payload := []
  parser := (({} : HeaderParser).parse [0x1f, 0x8b, 8, 8, 0, 0, 0, 0, 0, 3, 97, 0]).1
  parse_eq := rfl
  isDone := rfl
  decodes := emptyMember.complete

def namedLetter : GzipMember where
  head := [0x1f, 0x8b, 8, 8, 0, 0, 0, 0, 0, 3, 98, 0]
  body := letterStored
  payload := [104]
  parser := (({} : HeaderParser).parse [0x1f, 0x8b, 8, 8, 0, 0, 0, 0, 0, 3, 98, 0]).1
  parse_eq := rfl
  isDone := rfl
  decodes := letterMember.complete

def twoNamed : List GzipMember := [namedEmpty, namedLetter]

/-- The data comes byte by byte, so the first read crosses an empty member and a header. -/
def bytewise : Reader.Schedule (joined twoNamed) where
  pieces := (joined twoNamed).map ([·])
  sizes _ := 1
  flatten_eq := by rw [← List.flatMap_def, List.flatMap_singleton']
  pieces_ne_nil := by simp
  sizes_pos _ := Nat.one_pos

/-- A system with a file of both members. -/
def namedHost : Command.MemoryHost where
  files := [(["z"], { data := joined twoNamed })]

theorem contents_namedHost : namedHost.contents "z" = .ok (joined twoNamed) := by
  have hnames : Command.Path.names "z" = ["z"] := by
    rw [Command.Path.names, String.splitOn, if_neg (by decide), String.splitOnAux,
      if_neg (by decide), if_neg (by decide), String.splitOnAux, if_pos (by decide)]
    decide
  have hrooted : Command.Path.isRooted "z" = false := by decide +kernel
  rw [Command.MemoryHost.contents, Command.MemoryHost.resolve, hnames, Command.MemoryHost.walk,
    if_neg (by decide), hrooted]
  rfl

theorem reads_keep_to_members_two :
    (∃ r rs r', Reader.withOptions (bytewise.pieces.map .data) { bufferSize := 1 } = .ok r ∧
      r.titledReads (readTurns 51) bytewise.sizes (readTurns 51) 0 = some (rs, none, r') ∧
      Deals [] twoNamed rs ∧ r'.header = .ok namedLetter.header) ∧
    (Command.runHeader "z" true : StateM Command.MemoryHost (Option Command.Failure)).run namedHost =
      (none, namedHost.print (utf8Bytes (Command.HeaderReport.json
        { file := "z", header := namedLetter.header, members := 2, compressedSize := 51,
          uncompressedSize := 1 }))) := by
  obtain ⟨hreads, hcommand⟩ := reads_keep_to_members twoNamed nofun
  constructor
  · obtain ⟨r, hr, hrun⟩ := hreads { bufferSize := 1 } rfl rfl rfl bytewise
    obtain ⟨rs, r', hend, hdeals, hlast⟩ := hrun (readTurns 51) (readTurns 51)
      (Nat.le_refl _) (Nat.le_refl _)
    exact ⟨r, rs, r', hr, hend, hdeals, hlast⟩
  · have hrun := hcommand (StateM Command.MemoryHost) "z" true (set namedHost) (set namedHost)
      (set namedHost) (Command.serves_memory contents_namedHost)
    exact congrFun hrun namedHost

end GzipStream
