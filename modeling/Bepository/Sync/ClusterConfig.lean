import Bepository.Bep.Framing
import Bepository.Lib.Result
import Bepository.Lib.Run
import Bepository.Lib.Table

/-!
# The exchange of `ClusterConfig`s (`bepository-bep/src/connection.rs`)

A connection begins with a `ClusterConfig` of each side.  The folders that the peer lists become mutual: they
are registered, our own `ClusterConfig` is sent again if it lacked one of them, and an `Index` is sent for each
of them.  Further `ClusterConfig`s of the peer are processed the same way, one after another: the message loop
is the only task that reads them.

The storage and the channel to the writer are seen through what they answer.
-/

namespace Bepository.ClusterConfig

open Lib List Table

/-! ### Messages -/

/-- `Device`, as far as it is read or set. -/
structure Device where
  id : Bytes
  maxSequence : ℤ
  indexId : ℕ
  deriving DecidableEq

/-- `Folder`, as far as it is read or set. -/
structure Folder where
  id : Str
  label : Str
  devices : List Device
  deriving DecidableEq

/-- `ClusterConfig`. -/
structure Config where
  folders : List Folder
  secondary : Bool
  deriving DecidableEq

inductive Sent where
  | clusterConfig (cc : Config)
  | index (folder : Str) (files : List WireFile) (lastSequence : ℤ)
  deriving DecidableEq

/-- `ConnectionContext`, and `ClusterConfig::decode` with the text of its errors. -/
structure Context where
  localDevice : Bytes
  remoteDevice : Bytes
  decode : Bytes → Except String Config

/-- What the storage and the writer answer while one message is processed, when the retries are over.  The
number tells apart questions that are asked more than once: the position in the list of folders, or how much
has been sent before. -/
structure Answers where
  ensureFolders : List (Str × Str) → Except LoopError Unit
  /-- the label and the local sequence of a folder -/
  folder : ℕ → Str → Except LoopError (Str × ℤ)
  /-- `Folder::index` from sequence zero -/
  index : ℕ → Str → Except LoopError (List WireFile)
  writer : ℕ → Except LoopError Unit

/-! ### Sending -/

section Sending

variable (ctx : Context) (a : Answers)

def buildClusterConfig (folders : List Str) : Except LoopError Config :=
  (folders.zipIdx.mapM fun p => (a.folder p.2 p.1).map fun f =>
    (⟨p.1, f.1, [⟨ctx.localDevice, f.2, 0⟩, ⟨ctx.remoteDevice, 0, 0⟩]⟩ : Folder)).map fun folders => ⟨folders, false⟩

/-- `MessageWriter::send`: a closed channel takes nothing. -/
def send (m : Sent) (queue : List Sent) : Except LoopError Unit × List Sent :=
  match a.writer queue.length with
  | .error e => (.error e, queue)
  | .ok () => (.ok (), queue ++ [m])

def lastSequence (files : List WireFile) : ℤ :=
  files.foldl (fun last fi => if last < fi.sequence then fi.sequence else last) 0

def sendIndex (folder : Str) (queue : List Sent) : Except LoopError Unit × List Sent :=
  match a.index queue.length folder with
  | .error e => (.error e, queue)
  | .ok files => send a (.index folder files (lastSequence files)) queue

def sendIndexes : List Str → List Sent → Except LoopError Unit × List Sent
  | [], queue => (.ok (), queue)
  | folder :: folders, queue =>
    match sendIndex a folder queue with
    | (.error e, queue) => (.error e, queue)
    | (.ok (), queue) => sendIndexes folders queue

/-- The `ClusterConfig` that is sent again, if there is something new to list. -/
def sendUpdatedCc (ourCc newForOurCc : List Str) (queue : List Sent) : Except LoopError Unit × List Sent :=
  if newForOurCc.isEmpty then (.ok (), queue)
  else
    match buildClusterConfig ctx a (ourCc ++ newForOurCc) with
    | .error e => (.error e, queue)
    | .ok cc => send a (.clusterConfig cc) queue

/-! ### Processing -/

/-- One round of the first loop of `process_peer_cc`: the id, the label and the peer's `index_id`. -/
def parseFolder (f : Folder) : Except LoopError (Str × Str × ℕ) :=
  match f.devices.find? fun d => d.id = ctx.remoteDevice with
  | none => .error (badMessage s!"peer omitted themselves from folder {f.id.toString} in ClusterConfig")
  | some dev => .ok (f.id, f.label, dev.indexId)

/-- `process_peer_cc`.  `ourCc` are the folders of our last `ClusterConfig`, in the order in which the set
yields them. -/
def processPeerCc (peerCc : Config) (currentMutual : Table Str ℕ) (ourCc : List Str) (queue : List Sent) :
    Except LoopError (List (Str × ℕ) × List Str) × List Sent :=
  match peerCc.folders.mapM (parseFolder ctx) with
  | .error e => (.error e, queue)
  | .ok parsed =>
    match a.ensureFolders (parsed.map fun p => (p.1, p.2.1)) with
    | .error e => (.error e, queue)
    | .ok () =>
      let newMutual := (parsed.map fun p => (p.1, p.2.2)).filter fun p => p.1 ∉ currentMutual
      let newForOurCc := (newMutual.filter fun p => !ourCc.contains p.1).map Prod.fst
      match sendUpdatedCc ctx a ourCc newForOurCc queue with
      | (.error e, queue) => (.error e, queue)
      | (.ok (), queue) =>
        match sendIndexes a (newMutual.map Prod.fst) queue with
        | (.error e, queue) => (.error e, queue)
        | (.ok (), queue) => (.ok (newMutual, newForOurCc), queue)

end Sending

/-- `ConnectionInner`, the folders, and what has been sent. -/
structure Conn where
  mutualFolders : Table Str ℕ
  ourCcFolders : Finset Str
  queue : List Sent

section Handlers

variable (ctx : Context) (a : Answers)

/-- The body of a `ClusterConfig`. -/
def decodeCc (msg : RawMessage) : Except LoopError Config :=
  match ctx.decode msg.body with
  | .error e => .error (badMessage s!"protobuf decode error: {e}")
  | .ok cc => .ok cc

/-- The folders that the first `ClusterConfig` lists: the shared ones, then those that the storage lists. -/
def initialFolders (shared listed : List Str) : List Str :=
  listed.foldl (fun folders id => if folders.contains id then folders else folders ++ [id]) shared

/-- The reading half of `exchange_initial_cluster_config`. -/
def firstCc (msg : RawMessage) : Except LoopError Config :=
  if MessageType.ofI32 msg.header.type ≠ some .clusterConfig then
    .error (badMessage s!"unexpected message type {msg.header.type} in state cluster_config")
  else decodeCc ctx msg

def exchangeInitialClusterConfig (shared listed ourCc : List Str) (msg : RawMessage) :
    Except LoopError Conn × List Sent :=
  match buildClusterConfig ctx a (initialFolders shared listed) with
  | .error e => (.error e, [])
  | .ok cc =>
    match send a (.clusterConfig cc) [] with
    | (.error e, queue) => (.error e, queue)
    | (.ok (), queue) =>
      match firstCc ctx msg with
      | .error e => (.error e, queue)
      | .ok peerCc =>
        match processPeerCc ctx a peerCc ∅ ourCc queue with
        | (.error e, queue) => (.error e, queue)
        | (.ok (newMutual, newForOurCc), queue) =>
          (.ok ⟨Table.insertAll ∅ newMutual, ourCc.toFinset ∪ newForOurCc.toFinset, queue⟩, queue)

/-- `handle_cluster_config_update`, from the message on. -/
def handleClusterConfigUpdate (ourCc : List Str) (msg : RawMessage) (c : Conn) : Except LoopError Unit × Conn :=
  match decodeCc ctx msg with
  | .error e => (.error e, c)
  | .ok cc =>
    match processPeerCc ctx a cc c.mutualFolders ourCc c.queue with
    | (.error e, queue) => (.error e, { c with queue := queue })
    | (.ok (newMutual, newForOurCc), queue) =>
      (.ok (), ⟨Table.insertAll c.mutualFolders newMutual, c.ourCcFolders ∪ newForOurCc.toFinset, queue⟩)

end Handlers

/-! ### Runs -/

/-- A `ClusterConfig` of the peer arrives.  The first one completes the exchange that begins the connection;
`ourCc` is the order in which our set of folders is iterated. -/
inductive Act where
  | exchange (a : Answers) (listed ourCc : List Str) (msg : RawMessage)
  | update (a : Answers) (ourCc : List Str) (msg : RawMessage)

def Act.message : Act → RawMessage
  | .exchange _ _ _ msg => msg
  | .update _ _ msg => msg

def Iterates (ourCc : List Str) (s : Finset Str) : Prop := ourCc.Nodup ∧ ourCc.toFinset = s

instance (ourCc : List Str) (s : Finset Str) : Decidable (Iterates ourCc s) := by
  unfold Iterates
  infer_instance

def step (ctx : Context) (shared : List Str) : Option Conn → Act → Option (Option Conn)
  | none, .exchange a listed ourCc msg =>
    if Iterates ourCc (initialFolders shared listed).toFinset then
      match exchangeInitialClusterConfig ctx a shared listed ourCc msg with
      | (.error _, _) => none
      | (.ok c, _) => some (some c)
    else none
  | some c, .update a ourCc msg =>
    if Iterates ourCc c.ourCcFolders then
      match handleClusterConfigUpdate ctx a ourCc msg c with
      | (.error _, _) => none
      | (.ok (), c) => some (some c)
    else none
  | _, _ => none

/-! ### What has been sent and heard -/

/-- The folders of the `Index` messages. -/
def indexes (queue : List Sent) : List Str :=
  queue.filterMap fun m => match m with
    | .index folder _ _ => some folder
    | .clusterConfig _ => none

/-- The folders of the `ClusterConfig`s, message by message. -/
def configs (queue : List Sent) : List (List Str) :=
  queue.filterMap fun m => match m with
    | .index _ _ _ => none
    | .clusterConfig cc => some (cc.folders.map Folder.id)

/-- The peer's `index_id` in an entry. -/
def Folder.indexIdOf (f : Folder) (remote : Bytes) : Option ℕ :=
  (f.devices.find? fun d => d.id = remote).map Device.indexId

/-- The peer's `index_id` in the last entry of the folder. -/
def Config.indexIdOf (cc : Config) (remote : Bytes) (folder : Str) : Option ℕ :=
  (cc.folders.reverse.find? fun f => f.id = folder).bind fun f => f.indexIdOf remote

/-- The `index_id` in the latest `ClusterConfig` that mentions the folder. -/
def latestIndexId (remote : Bytes) (folder : Str) (heard : List Config) : Option ℕ :=
  heard.foldl (fun last cc => (cc.indexIdOf remote folder).or last) none

/-- The `ClusterConfig`s that the messages carry. -/
def heard (ctx : Context) (acts : List Act) : List Config :=
  acts.filterMap fun act => (ctx.decode act.message.body).toOption

structure Agreed (remote : Bytes) (heard : List Config) (c : Conn) : Prop where
  listed : ∃ ids, (configs c.queue).getLast? = some ids ∧ ids.Nodup ∧ ∀ folder ∈ c.mutualFolders, folder ∈ ids
  indexed : ∀ folder, (indexes c.queue).count folder = if folder ∈ c.mutualFolders then 1 else 0
  latest : ∀ folder, c.mutualFolders.lookup folder = latestIndexId remote folder heard

/-- The folders that a message lists and no message before it. -/
def newIds (remote : Bytes) (past : List Config) (cc : Config) : List Str :=
  (cc.folders.map Folder.id).filter fun id => latestIndexId remote id past = none

/-- A message that lists no new folder twice and has for each other folder the `index_id` heard before. -/
def Fits (remote : Bytes) (past : List Config) (cc : Config) : Prop :=
  (newIds remote past cc).Nodup ∧
    ∀ f ∈ cc.folders, ∀ i ∈ latestIndexId remote f.id past, cc.indexIdOf remote f.id = some i

def FitAll (remote : Bytes) : List Config → List Config → Prop
  | _, [] => True
  | past, cc :: later => Fits remote past cc ∧ FitAll remote (past ++ [cc]) later

/-- The first message has a folder that our first `ClusterConfig` lacks, so that another one is sent. -/
def Act.resends (ctx : Context) (shared : List Str) : Act → Prop
  | .exchange _ listed _ msg => ∃ cc, ctx.decode msg.body = .ok cc ∧
      ∃ f ∈ cc.folders, f.id ∉ initialFolders shared listed
  | .update _ _ _ => False

/-- The exchange is in order after each of the messages. -/
def AgreedAlong (ctx : Context) (shared : List Str) (past : List Config) (s : Option Conn) (acts : List Act) : Prop :=
  ∀ acts' c, acts' ≠ [] → acts' <+: acts → run (step ctx shared) s acts' = some (some c) →
    Agreed ctx.remoteDevice (past ++ heard ctx acts') c

/-- All messages fit, and no folder is shared twice, unless another `ClusterConfig` is sent at once. -/
structure Orderly (ctx : Context) (shared : List Str) (acts : List Act) : Prop where
  shared : shared.Nodup ∨ ∃ act ∈ acts.head?, act.resends ctx shared
  fit : FitAll ctx.remoteDevice [] (heard ctx acts)

instance {remote : Bytes} {past : List Config} {cc : Config} : Decidable (Fits remote past cc) :=
  inferInstanceAs (Decidable (_ ∧ _))

instance decidableFitAll (remote : Bytes) : ∀ past later, Decidable (FitAll remote past later)
  | _, [] => inferInstanceAs (Decidable True)
  | past, cc :: later =>
    have := decidableFitAll remote (past ++ [cc]) later
    inferInstanceAs (Decidable (_ ∧ _))

/-! ### One message -/

section Processing

variable {ctx : Context} {a : Answers} {queue queue' : List Sent} {cc : Config} {folder : Str} {i : ℕ}

lemma send_eq_ok {m : Sent} (h : send a m queue = (.ok (), queue')) : queue' = queue ++ [m] := by
  unfold send at h
  split at h
  · cases h
  · cases h
    rfl

lemma sendIndexes_eq_ok {folders : List Str} (h : sendIndexes a folders queue = (.ok (), queue')) :
    indexes queue' = indexes queue ++ folders ∧ configs queue' = configs queue := by
  induction folders generalizing queue with
  | nil =>
    cases h
    simp
  | cons folder folders ih =>
    rw [sendIndexes] at h
    split at h
    · cases h
    · next mid hs =>
      unfold sendIndex at hs
      split at hs
      · cases hs
      · rw [(ih h).1, (ih h).2, send_eq_ok hs]
        simp [indexes, configs]

lemma buildClusterConfig_eq_ok {folders : List Str} (h : buildClusterConfig ctx a folders = .ok cc) :
    cc.folders.map Folder.id = folders := by
  obtain ⟨fs, hfs, rfl⟩ := map_eq_ok.1 h
  have hids : fs.map Folder.id = folders.zipIdx.map Prod.fst := by
    refine map_of_mapM_eq_ok (fun p f hf => ?_) hfs
    obtain ⟨r, -, rfl⟩ := map_eq_ok.1 hf
    rfl
  rw [hids, zipIdx_map_fst]

lemma sendUpdatedCc_eq_ok {ourCc new : List Str} (h : sendUpdatedCc ctx a ourCc new queue = (.ok (), queue')) :
    indexes queue' = indexes queue ∧ configs queue' = configs queue ++ if new = [] then [] else [ourCc ++ new] := by
  unfold sendUpdatedCc at h
  split_ifs at h with hnew
  · cases h
    rw [if_pos (List.isEmpty_iff.1 hnew)]
    simp
  · rw [if_neg fun hn => hnew (List.isEmpty_iff.2 hn)]
    split at h
    · cases h
    · next cc hcc =>
      rw [send_eq_ok h]
      simp [indexes, configs, buildClusterConfig_eq_ok hcc]

lemma parseFolder_eq_ok {f : Folder} {p : Str × Str × ℕ} (h : parseFolder ctx f = .ok p) :
    p.1 = f.id ∧ f.indexIdOf ctx.remoteDevice = some p.2.2 := by
  unfold parseFolder at h
  split at h
  · cases h
  · next dev hdev =>
    cases h
    unfold Folder.indexIdOf
    rw [hdev]
    exact ⟨rfl, rfl⟩

lemma Config.indexIdOf_eq_some {remote : Bytes} (h : cc.indexIdOf remote folder = some i) :
    ∃ f ∈ cc.folders, f.id = folder ∧ f.indexIdOf remote = some i := by
  obtain ⟨f, hf, hidx⟩ := Option.bind_eq_some_iff.1 h
  exact ⟨f, mem_reverse.1 (mem_of_find?_eq_some hf), by simpa using find?_some hf, hidx⟩

lemma exists_indexIdOf {parsed : List (Str × Str × ℕ)} (hp : cc.folders.mapM (parseFolder ctx) = .ok parsed)
    {f : Folder} (hf : f ∈ cc.folders) : ∃ i, cc.indexIdOf ctx.remoteDevice f.id = some i := by
  obtain ⟨g, hg⟩ : ∃ g, cc.folders.reverse.find? (fun g => g.id = f.id) = some g :=
    Option.isSome_iff_exists.1 (find?_isSome.2 ⟨f, mem_reverse.2 hf, decide_eq_true rfl⟩)
  obtain ⟨q, -, hq⟩ := exists_of_mapM_eq_ok hp (mem_reverse.1 (mem_of_find?_eq_some hg))
  refine ⟨q.2.2, ?_⟩
  rw [Config.indexIdOf, hg]
  exact (parseFolder_eq_ok hq).2

/-- What `process_peer_cc` has done when it succeeds: which folders are new, what was sent for them. -/
structure Processed (remote : Bytes) (cc : Config) (current : Table Str ℕ) (ourCc : List Str) (queue : List Sent)
    (newMutual : List (Str × ℕ)) (newForOurCc : List Str) (queue' : List Sent) : Prop where
  ids : newMutual.map Prod.fst = (cc.folders.map Folder.id).filter (· ∉ current)
  known : ∀ f ∈ cc.folders, ∃ i, cc.indexIdOf remote f.id = some i
  entry : ∀ folder i, folder ∉ current → cc.indexIdOf remote folder = some i → (folder, i) ∈ newMutual
  ours : newForOurCc = (newMutual.map Prod.fst).filter (· ∉ ourCc)
  indexed : indexes queue' = indexes queue ++ newMutual.map Prod.fst
  sent : configs queue' = configs queue ++ if newForOurCc = [] then [] else [ourCc ++ newForOurCc]

lemma processPeerCc_eq_ok {current : Table Str ℕ} {ourCc newForOurCc : List Str} {newMutual : List (Str × ℕ)}
    (h : processPeerCc ctx a cc current ourCc queue = (.ok (newMutual, newForOurCc), queue')) :
    Processed ctx.remoteDevice cc current ourCc queue newMutual newForOurCc queue' := by
  unfold processPeerCc at h
  split at h
  · cases h
  next parsed hp =>
  split at h
  · cases h
  dsimp only at h
  split at h
  · cases h
  next mid hu =>
  split at h
  · cases h
  next last hi =>
  cases h
  have hids : (parsed.map fun p => (p.1, p.2.2)).map Prod.fst = cc.folders.map Folder.id := by
    rw [map_map]
    exact map_of_mapM_eq_ok (fun f p hf => (parseFolder_eq_ok hf).1) hp
  have hfilter : ∀ (P : Str → Bool) (l : List (Str × ℕ)), (l.filter (P ∘ Prod.fst)).map Prod.fst =
      (l.map Prod.fst).filter P := fun P l => filter_map.symm
  refine ⟨?_, fun f => exists_indexIdOf hp, fun folder i hout hidx => ?_, ?_, ?_, ?_⟩
  · rw [← hids]
    exact hfilter (fun id => id ∉ current) _
  · obtain ⟨f, hf, rfl, hfi⟩ := Config.indexIdOf_eq_some hidx
    obtain ⟨p, hp', hpf⟩ := exists_of_mapM_eq_ok hp hf
    obtain ⟨hid, hpi⟩ := parseFolder_eq_ok hpf
    rw [hfi] at hpi
    refine mem_filter.2 ⟨mem_map.2 ⟨p, hp', ?_⟩, decide_eq_true hout⟩
    rw [hid, Option.some.inj hpi]
  · refine (hfilter (fun id => !ourCc.contains id) _).trans (filter_congr fun id _ => ?_)
    simp
  · rw [(sendIndexes_eq_ok hi).1, (sendUpdatedCc_eq_ok hu).1]
  · rw [(sendIndexes_eq_ok hi).2, (sendUpdatedCc_eq_ok hu).2]

end Processing

/-! ### All messages -/

/-- What the messages so far have left behind: `our_cc_folders` are the folders of the last `ClusterConfig`
sent, and the mutual folders are among them. -/
structure Kept (remote : Bytes) (heard : List Config) (c : Conn) : Prop where
  ours : ∃ ids, (configs c.queue).getLast? = some ids ∧ ids.toFinset = c.ourCcFolders
  shared : ∀ folder ∈ c.mutualFolders, folder ∈ c.ourCcFolders
  indexed : ∀ folder, (indexes c.queue).count folder = if folder ∈ c.mutualFolders then 1 else 0
  latest : ∀ folder, c.mutualFolders.lookup folder = latestIndexId remote folder heard

def ListedOnce (c : Conn) : Prop := ∀ ids ∈ (configs c.queue).getLast?, ids.Nodup

section Messages

variable {ctx : Context} {remote : Bytes} {past : List Config} {c : Conn}

lemma Kept.agreed_iff (h : Kept remote past c) : Agreed remote past c ↔ ListedOnce c := by
  obtain ⟨ids, hlast, hours⟩ := h.ours
  constructor
  · rintro ⟨⟨ids', hlast', hnodup, -⟩, -, -⟩ ids hids
    rw [hlast', Option.mem_some_iff] at hids
    rwa [← hids]
  · refine fun hl => ⟨⟨ids, hlast, hl ids hlast, fun folder hf => ?_⟩, h.indexed, h.latest⟩
    rw [← mem_toFinset, hours]
    exact h.shared folder hf

lemma latestIndexId_concat (cc : Config) (folder : Str) : latestIndexId remote folder (past ++ [cc]) =
      (cc.indexIdOf remote folder).or (latestIndexId remote folder past) := by
  simp [latestIndexId]

section OneMessage

variable {cc : Config} {ourCc newForOurCc : List Str} {newMutual : List (Str × ℕ)} {queue : List Sent} {folder : Str}

/-- The connection after the message. -/
def Conn.process (c : Conn) (newMutual : List (Str × ℕ)) (newForOurCc : List Str) (queue : List Sent) : Conn :=
  ⟨Table.insertAll c.mutualFolders newMutual, c.ourCcFolders ∪ newForOurCc.toFinset, queue⟩

lemma Processed.notMem (hp : Processed remote cc c.mutualFolders ourCc c.queue newMutual newForOurCc queue)
    (hf : folder ∈ c.mutualFolders) : folder ∉ newMutual.map Prod.fst := by
  rw [hp.ids, mem_filter, decide_eq_true_iff]
  exact fun hmem => hmem.2 hf

section

variable (h : Kept remote past c)
  (hp : Processed remote cc c.mutualFolders ourCc c.queue newMutual newForOurCc queue)
include h hp

lemma Kept.newIds_eq : newMutual.map Prod.fst = newIds remote past cc := by
  rw [hp.ids, newIds]
  refine filter_congr fun folder _ => ?_
  simp only [← h.latest, AList.lookup_eq_none]

lemma Kept.ours_process (hit : Iterates ourCc c.ourCcFolders) :
    ∃ ids, (configs queue).getLast? = some ids ∧ ids.toFinset = c.ourCcFolders ∪ newForOurCc.toFinset ∧
      ((newMutual.map Prod.fst).Nodup → (ids.Nodup ↔ newForOurCc ≠ [] ∨ ListedOnce c)) := by
  by_cases hempty : newForOurCc = []
  · obtain ⟨ids, hlast, hids⟩ := h.ours
    refine ⟨ids, ?_, ?_, fun _ => ?_⟩
    · rw [hp.sent, if_pos hempty, append_nil]
      exact hlast
    · rw [hempty, hids]
      simp
    · simp [hempty, ListedOnce, hlast]
  · refine ⟨ourCc ++ newForOurCc, ?_, ?_, fun hn => iff_of_true ?_ (.inl hempty)⟩
    · rw [hp.sent, if_neg hempty]
      simp
    · rw [toFinset_append, hit.2]
    · rw [hp.ours]
      refine nodup_append.2 ⟨hit.1, hn.filter _, fun x hx y hy hxy => ?_⟩
      exact of_decide_eq_true (mem_filter.1 hy).2 (hxy ▸ hx)

lemma Kept.shared_process (hit : Iterates ourCc c.ourCcFolders)
    (hf : folder ∈ Table.insertAll c.mutualFolders newMutual) :
    folder ∈ c.ourCcFolders ∪ newForOurCc.toFinset := by
  have hiter : folder ∈ ourCc ↔ folder ∈ c.ourCcFolders := by rw [← hit.2, mem_toFinset]
  rw [Finset.mem_union, mem_toFinset, hp.ours, mem_filter, decide_eq_true_iff, hiter]
  rcases mem_insertAll.1 hf with hf | hf
  · by_cases hc : folder ∈ c.ourCcFolders
    · exact .inl hc
    · exact .inr ⟨hf, hc⟩
  · exact .inl (h.shared folder hf)

lemma Kept.indexed_process (hn : (newMutual.map Prod.fst).Nodup) :
    (indexes queue).count folder = if folder ∈ Table.insertAll c.mutualFolders newMutual then 1 else 0 := by
  simp only [hp.indexed, count_append, h.indexed folder, mem_insertAll]
  by_cases hf : folder ∈ newMutual.map Prod.fst
  · rw [if_neg fun hc => hp.notMem hc hf, if_pos (.inl hf), count_eq_one_of_mem hn hf]
  · rw [count_eq_zero_of_not_mem hf]
    simp [hf]

lemma Kept.latest_process (hfit : Fits remote past cc) :
    AList.lookup folder (Table.insertAll c.mutualFolders newMutual) = latestIndexId remote folder (past ++ [cc]) := by
  rw [latestIndexId_concat, ← h.latest]
  by_cases hf : folder ∈ c.mutualFolders
  · -- a folder that was mutual keeps its `index_id`, which is the one heard again
    obtain ⟨i, hi⟩ := Option.isSome_iff_exists.1 (AList.lookup_isSome.2 hf)
    rw [lookup_insertAll_of_notMem (hp.notMem hf), hi]
    cases hcc : cc.indexIdOf remote folder with
    | none => rfl
    | some =>
      obtain ⟨f, hmem, rfl, -⟩ := Config.indexIdOf_eq_some hcc
      rw [hfit.2 f hmem i ((h.latest f.id).symm.trans hi)] at hcc
      exact hcc
  · rw [AList.lookup_eq_none.2 hf, Option.or_none]
    cases hcc : cc.indexIdOf remote folder with
    | some i =>
      exact lookup_insertAll_of_mem (h.newIds_eq hp ▸ hfit.1) (hp.entry folder i hf hcc)
    | none =>
      rw [lookup_insertAll_of_notMem, AList.lookup_eq_none.2 hf]
      intro hnew
      rw [hp.ids] at hnew
      obtain ⟨f, hmem, rfl⟩ := mem_map.1 (mem_filter.1 hnew).1
      obtain ⟨i, hi⟩ := hp.known f hmem
      rw [hi] at hcc
      cases hcc

lemma Kept.process (hit : Iterates ourCc c.ourCcFolders)
    (hfit : Fits remote past cc) : Kept remote (past ++ [cc]) (c.process newMutual newForOurCc queue) := by
  obtain ⟨ids, hlast, hids, -⟩ := h.ours_process hp hit
  exact ⟨⟨ids, hlast, hids⟩, fun _ hf => h.shared_process hp hit hf,
    fun _ => h.indexed_process hp (h.newIds_eq hp ▸ hfit.1), fun _ => h.latest_process hp hfit⟩

/-- **One message.** -/
lemma Kept.process_iff (hit : Iterates ourCc c.ourCcFolders) :
    Agreed remote (past ++ [cc]) (c.process newMutual newForOurCc queue) ↔
      Fits remote past cc ∧ (newForOurCc ≠ [] ∨ ListedOnce c) := by
  obtain ⟨ids, hlast, -, hnodup⟩ := h.ours_process hp hit
  have hlisted : ListedOnce (c.process newMutual newForOurCc queue) ↔ ids.Nodup := by
    simp [ListedOnce, Conn.process, hlast]
  constructor
  · intro ha
    -- each new folder has had one `Index`
    have hn : (newMutual.map Prod.fst).Nodup := by
      refine nodup_iff_count_le_one.2 fun folder => ?_
      have hle : (indexes queue).count folder ≤ 1 := by
        rw [show (indexes queue).count folder = _ from ha.indexed folder]
        split_ifs <;> omega
      rw [hp.indexed, count_append] at hle
      omega
    have hfit : Fits remote past cc := by
      refine ⟨h.newIds_eq hp ▸ hn, fun f hf i hi => ?_⟩
      have hold : c.mutualFolders.lookup f.id = some i := (h.latest f.id).trans hi
      have hmem : f.id ∈ c.mutualFolders := AList.lookup_isSome.1 (by rw [hold]; rfl)
      have hlatest := ha.latest f.id
      obtain ⟨j, hj⟩ := hp.known f hf
      rw [latestIndexId_concat, hj, Conn.process, lookup_insertAll_of_notMem (hp.notMem hmem), hold] at hlatest
      rw [hj, hlatest]
      rfl
    exact ⟨hfit, (hnodup hn).1 (hlisted.1 ((h.process hp hit hfit).agreed_iff.1 ha))⟩
  · rintro ⟨hfit, hl⟩
    rw [(h.process hp hit hfit).agreed_iff, hlisted]
    exact (hnodup (h.newIds_eq hp ▸ hfit.1)).2 hl

end

end OneMessage

/-- The connection that has sent its first `ClusterConfig`. -/
def Conn.first (cc₀ : Config) (folders : List Str) : Conn := ⟨∅, folders.toFinset, [.clusterConfig cc₀]⟩

/-- A step processes one message, on a connection that has at least sent its first `ClusterConfig`. -/
inductive Takes (ctx : Context) (shared : List Str) (cc : Config) (act : Act) : Option Conn → Conn → Prop
  | process {s ourCc newForOurCc newMutual queue} c
      (hc : s = some c ∨ s = none ∧ ∃ a cc₀ listed msg, act = .exchange a listed ourCc msg ∧
        cc₀.folders.map Folder.id = initialFolders shared listed ∧
        c = .first cc₀ (initialFolders shared listed)) (hit : Iterates ourCc c.ourCcFolders)
      (hp : Processed ctx.remoteDevice cc c.mutualFolders ourCc c.queue newMutual newForOurCc queue) :
      Takes ctx shared cc act s (c.process newMutual newForOurCc queue)

lemma decodeCc_eq_ok {msg : RawMessage} {cc : Config} (h : decodeCc ctx msg = .ok cc) :
    ctx.decode msg.body = .ok cc := by
  unfold decodeCc at h
  split at h
  · cases h
  · next hcc =>
    cases h
    exact hcc

variable {s s' : Option Conn} {shared : List Str}

lemma step_takes {act : Act} (h : step ctx shared s act = some s') :
    ∃ cc c', ctx.decode act.message.body = .ok cc ∧ s' = some c' ∧ Takes ctx shared cc act s c' := by
  unfold step at h
  split at h
  · next a listed ourCc msg =>
    split_ifs at h with hit
    split at h
    · cases h
    next c queue hx =>
    cases h
    unfold exchangeInitialClusterConfig at hx
    split at hx
    · cases hx
    next cc₀ hcc₀ =>
    split at hx
    · cases hx
    next sent hs =>
    split at hx
    · cases hx
    next cc hcc =>
    split at hx
    · cases hx
    next newMutual newForOurCc queue' hp =>
    cases hx
    rw [send_eq_ok hs] at hp
    unfold firstCc at hcc
    split_ifs at hcc
    refine ⟨cc, _, decodeCc_eq_ok hcc, rfl, ?_⟩
    rw [hit.2]
    exact .process (.first cc₀ (initialFolders shared listed))
      (.inr ⟨rfl, a, cc₀, listed, msg, rfl, buildClusterConfig_eq_ok hcc₀, rfl⟩) hit (processPeerCc_eq_ok hp)
  · next c a ourCc msg =>
    split_ifs at h with hit
    split at h
    · cases h
    next c' hx =>
    cases h
    unfold handleClusterConfigUpdate at hx
    split at hx
    · cases hx
    next cc hcc =>
    split at hx
    · cases hx
    next newMutual newForOurCc queue' hp =>
    cases hx
    exact ⟨cc, _, decodeCc_eq_ok hcc, rfl, .process c (.inl rfl) hit (processPeerCc_eq_ok hp)⟩
  · cases h

lemma nodup_initialFolders {listed : List Str} : (initialFolders shared listed).Nodup ↔ shared.Nodup := by
  unfold initialFolders
  induction listed generalizing shared with
  | nil => rfl
  | cons id listed ih =>
    rw [foldl_cons, ih]
    split_ifs with hid
    · rfl
    · have hout : id ∉ shared := by simpa using hid
      simp only [nodup_append, nodup_singleton, mem_singleton, true_and, and_iff_left_iff_imp]
      rintro - a ha _ rfl rfl
      exact hout ha

lemma kept_init {cc₀ : Config} {listed : List Str} (hids : cc₀.folders.map Folder.id = initialFolders shared listed) :
    Kept remote [] (.first cc₀ (initialFolders shared listed)) where
  ours := ⟨cc₀.folders.map Folder.id, rfl, by rw [hids]; rfl⟩
  shared := fun folder hf => absurd hf (AList.notMem_empty folder)
  indexed := fun folder => (if_neg (AList.notMem_empty folder)).symm
  latest := fun folder => AList.lookup_empty folder

lemma heard_cons {act : Act} {acts : List Act} {cc : Config} (h : ctx.decode act.message.body = .ok cc) :
    heard ctx (act :: acts) = cc :: heard ctx acts := by
  rw [heard, filterMap_cons, h]
  rfl

lemma agreedAlong_cons {act : Act} {acts : List Act} {cc : Config} (hs : step ctx shared s act = some (some c))
    (hcc : ctx.decode act.message.body = .ok cc) : AgreedAlong ctx shared past s (act :: acts) ↔
      Agreed ctx.remoteDevice (past ++ [cc]) c ∧ AgreedAlong ctx shared (past ++ [cc]) (some c) acts := by
  constructor
  · intro hall
    refine ⟨?_, fun later c' _ hpre hr => ?_⟩
    · have ha := hall [act] c (by simp) (prefix_append _ _) (run_cons_eq_some.2 ⟨_, hs, rfl⟩)
      rwa [heard_cons hcc] at ha
    · have ha := hall (act :: later) c' (by simp) (cons_prefix_cons.2 ⟨rfl, hpre⟩)
        (run_cons_eq_some.2 ⟨_, hs, hr⟩)
      rwa [heard_cons hcc, append_cons] at ha
  · rintro ⟨ha, hlater⟩ acts' c' hne hpre hr
    obtain ⟨later, rfl, hpre'⟩ := (prefix_cons_iff.1 hpre).resolve_left hne
    obtain ⟨t, hs', hr⟩ := run_cons_eq_some.1 hr
    rw [hs] at hs'
    cases hs'
    rw [heard_cons hcc, append_cons]
    by_cases hnil : later = []
    · subst hnil
      cases hr
      rwa [heard, filterMap_nil, append_nil]
    · exact hlater later c' hnil hpre' hr

lemma run_agreed_iff {acts : List Act} (h : Kept ctx.remoteDevice past c) (hl : ListedOnce c)
    (hr : run (step ctx shared) (some c) acts = some s') :
    AgreedAlong ctx shared past (some c) acts ↔ FitAll ctx.remoteDevice past (heard ctx acts) := by
  induction acts generalizing past c with
  | nil => exact iff_of_true (fun _ _ hne hpre => absurd (prefix_nil.1 hpre) hne) trivial
  | cons act acts ih =>
    obtain ⟨t, hs, hr⟩ := run_cons_eq_some.1 hr
    obtain ⟨cc, c₁, hcc, rfl, ht⟩ := step_takes hs
    obtain ⟨c₀, hc, hit, hp⟩ := ht
    obtain rfl : c = c₀ := by
      rcases hc with hc | ⟨⟨⟩, -⟩
      exact Option.some.inj hc
    have hone := h.process_iff hp hit
    rw [agreedAlong_cons hs hcc, heard_cons hcc, FitAll, hone, and_iff_left (Or.inr hl)]
    refine and_congr_right fun hfit => ?_
    have hk := h.process hp hit hfit
    exact ih hk (hk.agreed_iff.1 (hone.2 ⟨hfit, Or.inr hl⟩)) hr

end Messages

/-- **The exchange.**  After each message the mutual folders are in the last `ClusterConfig` sent, which lists
no folder twice, each of them has had exactly one `Index`, and `mutual_folders` has the latest `index_id` of
each folder: this is so exactly under the condition. -/
theorem clusterConfig_agreed_iff (ctx : Context) (shared : List Str) (acts : List Act) (c : Conn)
    (hr : run (step ctx shared) none acts = some (some c)) :
    AgreedAlong ctx shared [] none acts ↔ Orderly ctx shared acts := by
  cases acts with
  | nil => cases hr
  | cons act acts =>
    obtain ⟨t, hs, hr⟩ := run_cons_eq_some.1 hr
    obtain ⟨cc, c₁, hcc, rfl, ht⟩ := step_takes hs
    obtain @⟨ourCc, newForOurCc, newMutual, queue, c₀, hc, hit, hp⟩ := ht
    obtain ⟨-, a, cc₀, listed, msg, rfl, hids, rfl⟩ := hc.resolve_left (by rintro ⟨⟩)
    have hk₀ : Kept ctx.remoteDevice [] (.first cc₀ (initialFolders shared listed)) := kept_init hids
    have hone := hk₀.process_iff hp hit
    have hfirst : newForOurCc ≠ [] ∨ ListedOnce (.first cc₀ (initialFolders shared listed)) ↔
        shared.Nodup ∨ ∃ act ∈ (Act.exchange a listed ourCc msg :: acts).head?, act.resends ctx shared := by
      rw [or_comm]
      refine or_congr ?_ ?_
      · simp [ListedOnce, Conn.first, configs, hids, nodup_initialFolders]
      · have hiter : ∀ id, id ∈ ourCc ↔ id ∈ initialFolders shared listed := fun id => by
          rw [← mem_toFinset, hit.2]
          exact mem_toFinset
        have hdecode : ctx.decode msg.body = .ok cc := hcc
        simp [hp.ours, hp.ids, filter_eq_nil_iff, Act.resends, hdecode, hiter, Conn.first]
    rw [agreedAlong_cons hs hcc, hone]
    constructor
    · rintro ⟨⟨hfit, hl⟩, hlater⟩
      have hk := hk₀.process hp hit hfit
      have hl₁ := hk.agreed_iff.1 (hone.2 ⟨hfit, hl⟩)
      refine ⟨hfirst.1 hl, ?_⟩
      rw [heard_cons hcc]
      exact ⟨hfit, (run_agreed_iff hk hl₁ hr).1 hlater⟩
    · rintro ⟨hl, hall⟩
      rw [heard_cons hcc] at hall
      have hk := hk₀.process hp hit hall.1
      have hl₁ := hk.agreed_iff.1 (hone.2 ⟨hall.1, hfirst.2 hl⟩)
      exact ⟨⟨hall.1, hfirst.2 hl⟩, (run_agreed_iff hk hl₁ hr).2 hall.2⟩

/-! ### Some exchanges -/

section Decoder

/-- A number of the wire format, and the bytes after it. -/
def varint : Bytes → Option (ℕ × Bytes)
  | [] => none
  | b :: bs => if b < 128 then some (b.toNat, bs) else (varint bs).map fun r => (b.toNat - 128 + 128 * r.1, r.2)

/-- The fields of a message: numbers, and bytes after their length. -/
def wireFields : ℕ → Bytes → Option (List (ℕ × ℕ × Bytes))
  | _, [] => some []
  | 0, _ :: _ => none
  | fuel + 1, b :: bs => (varint (b :: bs)).bind fun tag => (varint tag.2).bind fun n =>
    if tag.1 % 8 = 0 then (wireFields fuel n.2).map ((tag.1 / 8, n.1, []) :: ·)
    else if tag.1 % 8 = 2 ∧ n.1 ≤ n.2.length then
      (wireFields fuel (n.2.drop n.1)).map ((tag.1 / 8, 0, n.2.take n.1) :: ·)
    else none

def fieldsOf (body : Bytes) : Option (List (ℕ × ℕ × Bytes)) := wireFields body.length body

def lastField (fields : List (ℕ × ℕ × Bytes)) (tag : ℕ) : ℕ × Bytes :=
  ((fields.reverse.find? fun f => f.1 = tag).map Prod.snd).getD (0, [])

def textOf (b : Bytes) : Str := b.map fun c => Char.ofNat c.toNat

def decodeDevice (body : Bytes) : Option Device :=
  (fieldsOf body).map fun fs => ⟨(lastField fs 1).2, (lastField fs 6).1, (lastField fs 8).1⟩

def decodeFolder (body : Bytes) : Option Folder :=
  (fieldsOf body).bind fun fs => ((fs.filter fun f => f.1 = 16).mapM fun f => decodeDevice f.2.2).map fun devices =>
    ⟨textOf (lastField fs 1).2, textOf (lastField fs 2).2, devices⟩

/-- `ClusterConfig::decode`, for texts in ASCII and numbers below 2^63. -/
def decodeConfig (body : Bytes) : Option Config :=
  (fieldsOf body).bind fun fs => ((fs.filter fun f => f.1 = 1).mapM fun f => decodeFolder f.2.2).map fun folders =>
    ⟨folders, (lastField fs 2).1 ≠ 0⟩

end Decoder

/-- The peer has device id 1. -/
def sampleContext : Context where
  localDevice := [0]
  remoteDevice := [1]
  decode := fun body => (decodeConfig body).elim (.error "unexpected end") .ok

/-- A folder with a name of one byte, with our device and the peer's, its `max_sequence` being 4. -/
def peerEntry (id indexId : UInt8) : Bytes :=
  [10, 22, 10, 1, id, 18, 1, id, 130, 1, 3, 10, 1, 0, 130, 1, 7, 10, 1, 1, 48, 4, 64, indexId]

def peerConfig (entries : List (UInt8 × UInt8)) : RawMessage :=
  ⟨⟨0, 0⟩, entries.flatMap fun e => peerEntry e.1 e.2⟩

example : sampleContext.decode (peerConfig [(97, 5)]).body =
    .ok ⟨[⟨['a'], ['a'], [⟨[0], 0, 0⟩, ⟨[1], 4, 5⟩]⟩], false⟩ := by decide

def answering : Answers where
  ensureFolders := fun _ => .ok ()
  folder := fun _ id => .ok (id, 3)
  index := fun _ _ => .ok []
  writer := fun _ => .ok ()

/-- `b` and `c` are in both messages; the second one brings `d` and has `b` twice. -/
def orderly : List Act :=
  [.exchange answering [['b']] [['b'], ['a']] (peerConfig [(99, 7), (98, 5)]),
    .update answering [['c'], ['a'], ['b']] (peerConfig [(98, 5), (100, 8), (99, 7), (98, 5)])]

instance (P : Conn → Prop) [DecidablePred P] (s : Option (Option Conn)) : Decidable (∃ c, s = some (some c) ∧ P c) :=
  decidable_of_iff (∃ t, s = some t ∧ ∃ c, t = some c ∧ P c) (by simp)

/-- The update brings one new folder: our `ClusterConfig` has gone out three times, with all four folders in
the last one, and `d` has had its `Index` after the two others. -/
theorem clusterConfig_agreed_orderly :
    ∃ c, run (step sampleContext [['a']]) none orderly = some (some c) ∧
      indexes c.queue = [['c'], ['b'], ['d']] ∧
      configs c.queue = [[['a'], ['b']], [['b'], ['a'], ['c']], [['c'], ['a'], ['b'], ['d']]] ∧
      Agreed [1] (heard sampleContext orderly) c := by
  obtain ⟨c, hr, hi, hcc⟩ : ∃ c, run (step sampleContext [['a']]) none orderly = some (some c) ∧
      indexes c.queue = [['c'], ['b'], ['d']] ∧
      configs c.queue = [[['a'], ['b']], [['b'], ['a'], ['c']], [['c'], ['a'], ['b'], ['d']]] := by
    decide
  have ho : Orderly sampleContext [['a']] orderly := ⟨.inl (by decide), by decide⟩
  exact ⟨c, hr, hi, hcc, (clusterConfig_agreed_iff _ _ _ c hr).2 ho _ c (by simp [orderly]) prefix_rfl hr⟩

/-- A new folder is listed twice. -/
def listedTwice : List Act := [.exchange answering [] [] (peerConfig [(97, 5), (97, 5)])]

/-- The `index_id` of a folder changes. -/
def reindexed : List Act :=
  [.exchange answering [['b']] [['b']] (peerConfig [(98, 5)]), .update answering [['b']] (peerConfig [(98, 6)])]

/-- A message without a folder. -/
def nothingNew : List Act := [.exchange answering [] [['a']] (peerConfig [])]

/-- A folder listed twice in one message is listed twice in our answer and has two `Index`es; an `index_id`
that changes is not taken over; a folder shared twice is listed twice. -/
theorem clusterConfig_disagreed :
    (∃ c, run (step sampleContext []) none listedTwice = some (some c) ∧
      (configs c.queue).getLast? = some [['a'], ['a']] ∧ (indexes c.queue).count ['a'] = 2 ∧
      ¬ Agreed [1] (heard sampleContext listedTwice) c) ∧
    (∃ c, run (step sampleContext []) none reindexed = some (some c) ∧ c.mutualFolders.lookup ['b'] = some 5 ∧
      ¬ Agreed [1] (heard sampleContext reindexed) c) ∧
    ∃ c, run (step sampleContext [['a'], ['a']]) none nothingNew = some (some c) ∧
      (configs c.queue).getLast? = some [['a'], ['a']] ∧ ¬ Agreed [1] (heard sampleContext nothingNew) c := by
  -- a `ClusterConfig` that lists a folder twice
  have hlisted : ∀ (past : List Config) (c : Conn), (configs c.queue).getLast? = some [['a'], ['a']] →
      ¬ Agreed [1] past c := by
    intro past c hlast ha
    obtain ⟨ids, hids, hnodup, -⟩ := ha.listed
    rw [hlast] at hids
    cases hids
    exact absurd hnodup (by decide)
  refine ⟨?_, ?_, ?_⟩
  · obtain ⟨c, hr, hlast, hcount⟩ : ∃ c, run (step sampleContext []) none listedTwice = some (some c) ∧
        (configs c.queue).getLast? = some [['a'], ['a']] ∧ (indexes c.queue).count ['a'] = 2 := by decide
    exact ⟨c, hr, hlast, hcount, hlisted _ c hlast⟩
  · obtain ⟨c, hr, hlook⟩ : ∃ c, run (step sampleContext []) none reindexed = some (some c) ∧
        c.mutualFolders.lookup ['b'] = some 5 := by decide
    refine ⟨c, hr, hlook, fun ha => ?_⟩
    have hlatest := ha.latest ['b']
    rw [hlook] at hlatest
    exact absurd hlatest (by decide)
  · obtain ⟨c, hr, hlast⟩ : ∃ c, run (step sampleContext [['a'], ['a']]) none nothingNew = some (some c) ∧
        (configs c.queue).getLast? = some [['a'], ['a']] := by decide
    exact ⟨c, hr, hlast, hlisted _ c hlast⟩

end Bepository.ClusterConfig
