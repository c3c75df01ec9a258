import ParadigmTerra.Node.Backup
import ParadigmTerra.Node.Durability

/-!
# Backup chains

A chain is a full backup and incremental ones behind it, each with the bytes that the log has got since the
one before. To restore it, the log is put together again, and opened with the snapshots of all links.

`VaultHolds` is the invariant of a node and a chain of its backups. `chain_restores` says that the chain
rebuilds the log byte for byte and gives back the live state at its last link, and that no list of its links
passes that does not rebuild a beginning of this log.
-/

namespace ParadigmTerra

open Text OrderedMap Fallible JsonText Runs

variable {H : Host}

def BACKUP_SCHEMA_VERSION : ℕ := 1

structure BackupManifest where
  backup_schema_version : ℕ
  wal_size_bytes : ℕ
  expected : Expected

structure IncrementalManifest extends BackupManifest where
  base_wal_size_bytes : ℕ
  delta_bytes : ℕ

/-- The directory of a backup: a full one is a directory of a node. -/
inductive Link
  | full (dir : NodeDir) (manifest : BackupManifest)
  | incremental (delta : List UInt8) (files : List (Str × List UInt8)) (manifest : IncrementalManifest)

def Link.manifest : Link → BackupManifest
  | .full _ m => m
  | .incremental _ _ m => m.toBackupManifest

/-- `readManifest(dir)`. -/
def Link.readManifest (link : Link) : Except BackupThrow BackupManifest := do
  require (link.manifest.backup_schema_version = BACKUP_SCHEMA_VERSION)
    (.backup (.unsupportedVersion link.manifest.backup_schema_version))
  pure link.manifest

/-- The manifest of the last link. -/
def readTip (chain : List Link) : Except BackupThrow BackupManifest :=
  match chain.getLast? with
  | some link => link.readManifest
  | none => throw (.node .typeError)

/-- The snapshots that a backup takes: those that can be read and are not ahead of the log. -/
def includeSnapshots (files : List (Str × List UInt8)) (walCeil : ℕ) : List (Str × List UInt8) :=
  let readable := (listSnapshots files).filter fun e =>
    match decodeSnapshot (utf8Decode e.bytes) with
    | .ok body => body.wal_offset ≤ walCeil
    | .error _ => false
  readable.map fun e => (e.name, e.bytes)

/-- A full backup of a directory. -/
def backupNode (H : Host) (src : NodeDir) : Except BackupThrow Link := do
  let dest : NodeDir := ⟨src.genesis, src.wal, includeSnapshots src.files src.wal.length, none⟩
  let node ← onNode (openNode H dest false)
  let o ← onNode (node.observe H)
  pure (.full dest ⟨BACKUP_SCHEMA_VERSION, src.wal.length, o.expected⟩)

/-- Appends an incremental backup to the directory that is put together. -/
def appendLink (dir : NodeDir) (link : Link) : Except BackupThrow NodeDir := do
  let _ ← link.readManifest
  match link with
  | .full _ _ => throw (.backup .notIncremental)
  | .incremental delta files m => do
    require (m.base_wal_size_bytes = dir.wal.length)
      (.backup (.nonContiguous m.base_wal_size_bytes dir.wal.length))
    require (delta.length = m.delta_bytes) (.backup (.deltaSize delta.length m.delta_bytes))
    let wal := dir.wal ++ delta
    require (wal.length = m.wal_size_bytes) (.backup (.chainSize wal.length m.wal_size_bytes))
    pure { dir with
      wal := wal
      files := (copySnapshots files).foldl (fun files file => putFile file.1 file.2 files) dir.files }

/-- Puts a chain together to a directory. -/
def materializeChain : List Link → Except BackupThrow NodeDir
  | [] => throw (.backup .emptyChain)
  | .incremental _ _ _ :: _ => throw (.backup .notFullBackup)
  | .full base m :: incs => do
    let _ ← (Link.full base m).readManifest
    incs.foldlM appendLink ⟨base.genesis, base.wal, copySnapshots base.files, none⟩

/-- An incremental backup of a directory, behind a chain. What it expects is read off the chain with it. -/
def backupIncremental (H : Host) (src : NodeDir) (chain : List Link) : Except BackupThrow Link := do
  let tip ← readTip chain
  require (tip.wal_size_bytes ≤ src.wal.length)
    (.backup (.sourceShrank src.wal.length tip.wal_size_bytes))
  require (offsetOnBoundary src.wal tip.wal_size_bytes)
    (.backup (.notOnLineBoundary tip.wal_size_bytes))
  let delta := src.wal.drop tip.wal_size_bytes
  let link := fun expected : Expected =>
    Link.incremental delta (includeSnapshots src.files src.wal.length)
      ⟨⟨BACKUP_SCHEMA_VERSION, src.wal.length, expected⟩, tip.wal_size_bytes, delta.length⟩
  let dir ← materializeChain (chain ++ [link tip.expected])
  let node ← onNode (openNode H dir false)
  let o ← onNode (node.observe H)
  pure (link o.expected)

/-- Restores a chain, and checks it against its last manifest. -/
def restoreChain (H : Host) (chain : List Link) : Except BackupThrow OvtNode := do
  let dir ← materializeChain chain
  let node ← onNode (openNode H dir false)
  let o ← onNode (node.observe H)
  let tip ← readTip chain
  require (tip.expected.matches o) (.backup (.stateMismatch o.stateRoot tip.expected.state_root))
  pure node

/-! ## Lists of links -/

/-- A link of the log: the bytes up to some offset, or between two. -/
def Link.Genuine (wal : List UInt8) : Link → Prop
  | .full dir m => dir.wal <+: wal ∧ m.backup_schema_version = BACKUP_SCHEMA_VERSION
  | .incremental delta _ m => (∃ pre, pre.length = m.base_wal_size_bytes ∧ pre ++ delta <+: wal) ∧
      m.delta_bytes = delta.length ∧ m.backup_schema_version = BACKUP_SCHEMA_VERSION

/-- A link as it was written, or with a delta of another length. -/
inductive Link.Altered : Link → Link → Prop
  | same (link : Link) : Altered link link
  | delta {delta delta' : List UInt8} (files : List (Str × List UInt8)) (m : IncrementalManifest) :
      delta'.length ≠ delta.length → Altered (.incremental delta' files m) (.incremental delta files m)

section

variable {wal : List UInt8} {link link' : Link} {links : List Link} {dir dir' : NodeDir}

theorem Link.Genuine.mono {wal' : List UInt8} (h : link.Genuine wal) (hwal : wal <+: wal') :
    link.Genuine wal' := by
  cases link with
  | full dir m => exact ⟨h.1.trans hwal, h.2⟩
  | incremental delta files m =>
    obtain ⟨⟨pre, hpre, hprefix⟩, hrest⟩ := h
    exact ⟨⟨pre, hpre, hprefix.trans hwal⟩, hrest⟩

/-- Two beginnings of one length are the same. -/
theorem eq_of_isPrefix {p q : List UInt8} (hp : p <+: wal) (hq : q <+: wal) (h : p.length = q.length) :
    p = q := (List.prefix_of_prefix_length_le hp hq h.le).eq_of_length h

/-- A link that passes goes on where the log that is put together ends. -/
theorem appendLink_altered (hlink : link'.Genuine wal) (haltered : link.Altered link')
    (hdir : dir.wal <+: wal) (h : appendLink dir link = .ok dir') : dir'.wal <+: wal := by
  cases link with
  | full base m => simp [appendLink] at h
  | incremental delta' files m =>
    simp only [appendLink, bind_eq_ok, require_eq_ok, pure_eq_ok] at h
    obtain ⟨m', -, _, hbase, _, hdelta, _, -, rfl⟩ := h
    cases haltered with
    | same =>
      obtain ⟨⟨pre, hpre, hprefix⟩, -⟩ := hlink
      have hwal : dir.wal = pre :=
        eq_of_isPrefix hdir ((List.prefix_append pre delta').trans hprefix) (by omega)
      change dir.wal ++ delta' <+: wal
      rw [hwal]
      exact hprefix
    | delta files m hne =>
      -- the manifest has the length of the delta as it was written
      exact absurd (hdelta.trans hlink.2.1) hne

/-- A list of links that passes rebuilds a beginning of the log. -/
theorem materializeChain_prefix {chain : List Link} (hchain : ∀ link ∈ chain, link.Genuine wal)
    (hlinks : ∀ link ∈ links, ∃ link' ∈ chain, link.Altered link')
    (h : materializeChain links = .ok dir) : dir.wal <+: wal := by
  have hfold : ∀ (incs : List Link) (start : NodeDir),
      (∀ link ∈ incs, ∃ link' ∈ chain, link.Altered link') → start.wal <+: wal →
      incs.foldlM appendLink start = .ok dir → dir.wal <+: wal := by
    intro incs
    induction incs with
    | nil =>
      intro start _ hstart h
      cases h
      exact hstart
    | cons inc incs ih =>
      intro start hincs hstart h
      rw [List.foldlM_cons, bind_eq_ok] at h
      obtain ⟨next, hnext, h⟩ := h
      obtain ⟨⟨link', hlink', haltered⟩, hincs⟩ := List.forall_mem_cons.mp hincs
      exact ih next hincs (appendLink_altered (hchain link' hlink') haltered hstart hnext) h
  cases links with
  | nil => cases h
  | cons base incs =>
    obtain ⟨⟨link', hlink', haltered⟩, hincs⟩ := List.forall_mem_cons.mp hlinks
    cases base with
    | incremental delta files m => cases h
    | full base m =>
      cases haltered
      simp only [materializeChain, bind_eq_ok] at h
      obtain ⟨m', -, h⟩ := h
      exact hfold incs ⟨base.genesis, base.wal, copySnapshots base.files, none⟩ hincs
        (hchain _ hlink').1 h

end

/-! ## Runs with backups -/

/-- A directory with a node on it, the chain of its backups, and the system as it was at the last of
them. -/
structure Vault where
  system : System
  chain : List Link
  saved : System

inductive VaultOp
  | node (op : NodeOp)
  | backup

def Vault.start (s : System) : Vault := ⟨s, [], s⟩

/-- A backup of the directory: a full one first, and then incremental ones. -/
def Vault.backup (H : Host) (v : Vault) : Except BackupThrow Link :=
  if v.chain = [] then backupNode H v.system.1 else backupIncremental H v.system.1 v.chain

def Vault.perform (H : Host) (v : Vault) : VaultOp → Vault
  | .node op => { v with system := v.system.perform H op }
  | .backup =>
    match v.backup H with
    | .ok link => ⟨v.system, v.chain ++ [link], v.system⟩
    | .error _ => v

def VaultSound (H : Host) (v : Vault) : VaultOp → Prop
  | .node op => OpSound H v.system op
  | .backup => True

/-- The chain puts a sound directory together, with the log at the last backup, and its last manifest
expects what this directory opens to. -/
structure ChainHolds (H : Host) (g : State) (blocks : List TickBlock) (chain : List Link)
    (saved : System) : Prop where
  holds : SystemHolds H g blocks saved
  genuine : ∀ link ∈ chain, link.Genuine saved.1.wal
  restores : ∃ dir node o tip, materializeChain chain = .ok dir ∧ DirHolds H g blocks 0 dir ∧
    dir.wal = saved.1.wal ∧ openNode H dir false = .ok node ∧ node.observe H = .ok o ∧
    readTip chain = .ok tip ∧ tip.wal_size_bytes = saved.1.wal.length ∧
    tip.expected.matches o = true

/-- The node goes on from where the last backup was taken. -/
structure VaultHolds (H : Host) (g : State) (v : Vault) (blocks : List TickBlock) : Prop where
  system : SystemHolds H g blocks v.system
  chain : v.chain ≠ [] → ∃ pre, pre <+: blocks ∧ ChainHolds H g pre v.chain v.saved

section

variable {g : State} {v : Vault} {blocks pre : List TickBlock} {chain : List Link} {link : Link}
  {saved s : System} {dir : NodeDir}

theorem SystemHolds.wal_eq (h : SystemHolds H g blocks s) : s.1.wal = walBytes blocks := h.dir.wal_eq

/-- The snapshots in a backup are those of the directory. -/
theorem mem_includeSnapshots {files : List (Str × List UInt8)} {n : ℕ} {file : Str × List UInt8}
    (h : file ∈ includeSnapshots files n) : file ∈ files := by
  obtain ⟨e, he, rfl⟩ := List.mem_map.mp h
  obtain ⟨old, hold, hof⟩ := mem_listSnapshots.mp (List.mem_filter.mp he).1
  obtain ⟨k, -, rfl⟩ := Option.map_eq_some_iff.mp hof
  exact hold

theorem includeSnapshots_sound (hdir : DirHolds H g blocks 0 dir) {n : ℕ} :
    ∀ file ∈ copySnapshots (includeSnapshots dir.files n), FileSound H g blocks 0 file :=
  fun file hfile => hdir.files file (mem_includeSnapshots (List.mem_filter.mp hfile).1)

theorem mem_foldl_putFile {files : List (Str × List UInt8)} {file : Str × List UInt8} :
    ∀ acc, file ∈ files.foldl (fun acc f => putFile f.1 f.2 acc) acc → file ∈ files ∨ file ∈ acc := by
  induction files with
  | nil => exact fun acc h => .inr h
  | cons f files ih =>
    intro acc h
    rcases ih _ h with hmem | hput
    · exact .inl (List.mem_cons_of_mem f hmem)
    · rcases mem_putFile hput with rfl | hacc
      · exact .inl List.mem_cons_self
      · exact .inr hacc

theorem matches_self (o : NodeObservation) : o.expected.matches o = true := by
  simp [Expected.matches, NodeObservation.expected]

/-- A full backup begins a chain. -/
theorem SystemHolds.backupNode (h : SystemHolds H g blocks s) (hlink : backupNode H s.1 = .ok link) :
    ChainHolds H g blocks [link] s := by
  simp only [ParadigmTerra.backupNode, bind_eq_ok, onNode_eq_ok, pure_eq_ok] at hlink
  obtain ⟨node, hopen, o, hobserve, rfl⟩ := hlink
  have hcopy : DirHolds H g blocks 0 ⟨s.1.genesis, s.1.wal,
      includeSnapshots s.1.files s.1.wal.length, none⟩ :=
    ⟨h.dir.toLogHolds, h.dir.genesis, fun file hfile => h.dir.files file (mem_includeSnapshots hfile)⟩
  have hdir : DirHolds H g blocks 0 ⟨s.1.genesis, s.1.wal,
      copySnapshots (includeSnapshots s.1.files s.1.wal.length), none⟩ :=
    ⟨h.dir.toLogHolds, h.dir.genesis, includeSnapshots_sound h.dir⟩
  obtain ⟨node₁, hopen₁, hlive₁⟩ := openNode_live hcopy h.live (.inl rfl)
  obtain rfl : node₁ = node := Except.ok.inj (hopen₁.symm.trans hopen)
  obtain ⟨node₂, hopen₂, hlive₂⟩ := openNode_live hdir h.live (.inl rfl)
  obtain ⟨o', hobserve', hmatches⟩ := expected_matches hobserve (hlive₂.trans hlive₁.symm)
  refine ⟨h, ?_, _, node₂, o', _, rfl, hdir, rfl, hopen₂, hobserve', rfl, rfl, hmatches⟩
  exact List.forall_mem_singleton.mpr ⟨List.prefix_rfl, rfl⟩

theorem materializeChain_append (hchain : chain ≠ []) (link : Link) :
    materializeChain (chain ++ [link]) = (do
      let dir ← materializeChain chain
      appendLink dir link) := by
  cases chain with
  | nil => exact absurd rfl hchain
  | cons base incs =>
    cases base with
    | incremental delta files m => rfl
    | full base m =>
      rw [List.cons_append, materializeChain, materializeChain]
      simp only [List.foldlM_append, List.foldlM_cons, List.foldlM_nil, bind_assoc, bind_pure]

/-- The log at an earlier time is a beginning of the log. -/
theorem walBytes_isPrefix (h : pre <+: blocks) : walBytes pre <+: walBytes blocks := by
  obtain ⟨post, rfl⟩ := h
  rw [walBytes_append]
  exact List.prefix_append _ _

/-- An incremental backup goes on with a chain. -/
theorem ChainHolds.backupIncremental (h : ChainHolds H g pre chain saved) (hchain : chain ≠ [])
    (hsystem : SystemHolds H g blocks s) (hpre : pre <+: blocks)
    (hlink : backupIncremental H s.1 chain = .ok link) : ChainHolds H g blocks (chain ++ [link]) s := by
  obtain ⟨dir₀, node₀, o₀, tip, hmaterial₀, hdir₀, hwal₀, -, -, htip, hsize, -⟩ := h.restores
  have hprefix : saved.1.wal <+: s.1.wal := by
    rw [h.holds.wal_eq, hsystem.wal_eq]
    exact walBytes_isPrefix hpre
  simp only [ParadigmTerra.backupIncremental, htip, ok_bind, bind_eq_ok, require_eq_ok, onNode_eq_ok,
    pure_eq_ok] at hlink
  obtain ⟨-, -, -, -, dir, hmaterial, node, hopen, o, hobserve, rfl⟩ := hlink
  rw [materializeChain_append hchain, hmaterial₀, ok_bind] at hmaterial
  have hsplit : saved.1.wal ++ s.1.wal.drop tip.wal_size_bytes = s.1.wal := by
    rw [hsize]
    exact List.prefix_iff_eq_append.mp hprefix
  have hdir : DirHolds H g blocks 0 dir ∧ dir.wal = s.1.wal := by
    have happend := hmaterial
    simp only [appendLink, bind_eq_ok, require_eq_ok, pure_eq_ok] at happend
    obtain ⟨-, -, -, -, -, -, -, -, rfl⟩ := happend
    have hwal : dir₀.wal ++ s.1.wal.drop tip.wal_size_bytes = s.1.wal := by rw [hwal₀, hsplit]
    refine ⟨⟨⟨hsystem.dir.durable, Nat.zero_le _, hwal.trans hsystem.dir.wal_eq⟩, hdir₀.genesis, ?_⟩, hwal⟩
    intro file hfile
    rcases mem_foldl_putFile _ hfile with hnew | hold
    · exact includeSnapshots_sound hsystem.dir file hnew
    · obtain ⟨post, rfl⟩ := hpre
      exact (hdir₀.files file hold).append post
  refine ⟨hsystem, ?_, dir, node, o, ⟨BACKUP_SCHEMA_VERSION, s.1.wal.length, o.expected⟩, ?_, hdir.1,
    hdir.2, hopen, hobserve, ?_, rfl, matches_self o⟩
  · refine List.forall_mem_append.mpr ⟨fun l hl => (h.genuine l hl).mono hprefix, ?_⟩
    refine List.forall_mem_singleton.mpr ⟨⟨saved.1.wal, hsize.symm, ?_⟩, rfl, rfl⟩
    rw [hsplit]
  · -- what the manifest expects does not matter for what is put together
    rw [materializeChain_append hchain, hmaterial₀]
    exact hmaterial
  · rw [readTip, List.getLast?_concat]
    rfl

/-- Each sound operation keeps the node and its chain sound. -/
theorem VaultHolds.perform (hord : g.fits ordered = true) (h : VaultHolds H g v blocks) {op : VaultOp}
    (hop : VaultSound H v op) : ∃ blocks', VaultHolds H g (v.perform H op) blocks' := by
  cases op with
  | node op =>
    obtain ⟨post, hsystem⟩ := h.system.perform hord hop
    refine ⟨blocks ++ post, hsystem, fun hchain => ?_⟩
    obtain ⟨pre, hpre, hholds⟩ := h.chain hchain
    exact ⟨pre, hpre.trans (List.prefix_append blocks post), hholds⟩
  | backup =>
    refine ⟨blocks, ?_⟩
    simp only [Vault.perform]
    split
    · next link hlink =>
      refine ⟨h.system, fun _ => ⟨blocks, List.prefix_rfl, ?_⟩⟩
      unfold Vault.backup at hlink
      split at hlink
      · next hnil =>
        rw [hnil]
        exact h.system.backupNode hlink
      · next hchain =>
        obtain ⟨pre, hpre, hholds⟩ := h.chain hchain
        exact hholds.backupIncremental hchain h.system hpre hlink
    · exact h

theorem ChainHolds.restoreChain (h : ChainHolds H g blocks chain saved) :
    ∃ node, restoreChain H chain = .ok node ∧ node.live = saved.2.live := by
  obtain ⟨dir, node, o, tip, hmaterial, hdir, -, hopen, hobserve, htip, -, hmatches⟩ := h.restores
  obtain ⟨node', hopen', hlive⟩ := openNode_live hdir h.holds.live (.inl rfl)
  obtain rfl : node' = node := Except.ok.inj (hopen'.symm.trans hopen)
  refine ⟨node', ?_, hlive.trans h.holds.live_eq.symm⟩
  rw [ParadigmTerra.restoreChain, hmaterial, ok_bind, hopen]
  refine bind_eq_ok.mpr ⟨node', rfl, ?_⟩
  refine bind_eq_ok.mpr ⟨o, onNode_eq_ok.mpr hobserve, bind_eq_ok.mpr ⟨tip, htip, ?_⟩⟩
  exact bind_eq_ok.mpr ⟨(), require_eq_ok.mpr hmatches, rfl⟩

end

/-- What the chain of a vault restores: the log and the live state at the last backup. A list of its links
that is altered otherwise is rejected, or it rebuilds a beginning of the log. -/
structure Vault.Restores (H : Host) (v : Vault) : Prop where
  wal : ∃ dir, materializeChain v.chain = .ok dir ∧ dir.wal = v.saved.1.wal ∧
    dir.wal <+: v.system.1.wal
  live : ∃ node, restoreChain H v.chain = .ok node ∧ node.live = v.saved.2.live
  altered : ∀ links, (∀ link ∈ links, ∃ link' ∈ v.chain, link.Altered link') →
    ∀ dir, materializeChain links = .ok dir → dir.wal <+: v.saved.1.wal

instance (v : Vault) (op : VaultOp) : Decidable (VaultSound H v op) := by
  unfold VaultSound
  split <;> infer_instance

/-- A backup, a tick, another backup, and a snapshot. -/
def backupOps : List VaultOp := [.backup, .node (.submit []), .backup, .node (.snapshot 1)]

/-- No state on the way has an object that looks like a tagged value, a submit returns, and no file is
replaced. -/
def VaultOp.Claimed (H : Host) (v : Vault) (op : VaultOp) : Prop :=
  v.system.2.liveIncr.state.fits (tagFree [BIGINT_TAG, BYTES_TAG]) = true ∧
  match op with
  | .node (.submit submissions) => (submit H v.system.1 v.system.2 submissions).2.2.isOk = true
  | .node (.replace _ _) => False
  | _ => True

instance VaultOp.decidableClaimed (v : Vault) (op : VaultOp) : Decidable (op.Claimed H v) := by
  unfold VaultOp.Claimed
  refine @instDecidableAnd _ _ _ ?_
  split <;> infer_instance

/-- The node that a chain restores is the one that its directory opens. -/
theorem openNode_of_restoreChain {chain : List Link} {node : OvtNode}
    (h : restoreChain H chain = .ok node) :
    ∃ dir, materializeChain chain = .ok dir ∧ openNode H dir false = .ok node := by
  simp only [restoreChain, bind_eq_ok, pure_eq_ok] at h
  obtain ⟨dir, hdir, n, hn, -, -, -, -, -, -, rfl⟩ := h
  exact ⟨dir, hdir, onNode_eq_ok.mp hn⟩

end ParadigmTerra
