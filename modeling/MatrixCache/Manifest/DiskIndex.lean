/-
# `Manifest.DiskIndex` — the disk index read back from its manifest

In the build without RocksDB the SSD tier keeps a manifest of its own.  Recovery replays its
lines into a new index, a new order and a count of bytes: a put whose block file exists lists
the key under the longer of the two lengths, a delete unlists it.

A put of a key that is listed already changes the length in the index and not the count, a line
is trimmed before it is decoded, and without a manifest the old order stays.  So recovery is
right after every line exactly when no such put changes a length, no sum passes 64 bits, no
line lists other keys trimmed than as written, and a missing manifest finds an empty order
(`recoverDiskIndex_consistent_iff`).  The delete of a key with an empty selector ends in a tab,
which is trimmed away, and is then no delete.
-/
import MatrixCache.Cache.Lifecycle
import MatrixCache.Manifest.Log
import MatrixCache.Manifest.Writers

namespace MatrixCache.Manifest

open Lib Cache List Option

/-! ## The scan -/

/-- `char::is_whitespace`. -/
def isWhiteSpace (c : Char) : Bool :=
  let n := c.toNat
  (9 ≤ n && n ≤ 13) || n = 0x20 || n = 0x85 || n = 0xA0 || n = 0x1680 ||
    (0x2000 ≤ n && n ≤ 0x200A) || n = 0x2028 || n = 0x2029 || n = 0x202F || n = 0x205F || n = 0x3000

/-- `str::trim`. -/
def trim (text : String) : String :=
  String.ofList ((text.toList.dropWhile isWhiteSpace).reverse.dropWhile isWhiteSpace).reverse

/-- The locals of `recover_disk_index_locked`. -/
structure DiskScan where
  index : Table CacheKey Nat
  order : List CacheKey
  bytes : Nat

namespace DiskScan

def empty : DiskScan := { index := ∅, order := [], bytes := 0 }

variable (bf : CacheKey → Option Nat)

/-- One operation; `bf` is the length of a key's block file, if there is one. -/
def apply (scan : DiskScan) : CacheManifestOp → DiskScan
  | .delete key =>
    { index := scan.index.remove key
      order := scan.order.filter (· ≠ key)
      bytes := scan.bytes - (scan.index.get? key).getD 0 }
  | .put key blockLen =>
    match bf key with
    | none => scan
    | some fileLen =>
      let length := max fileLen blockLen
      if scan.index.contains key then { scan with index := scan.index.set key length }
      else
        { index := scan.index.set key length
          order := scan.order ++ [key]
          bytes := saturatingAdd scan.bytes length }

/-- A key listed for the first time gets metadata, unless it has some. -/
def noteMetadata (scan : DiskScan) (s : CacheInner) : CacheManifestOp → CacheInner
  | .delete _ => s
  | .put key _ =>
    if (bf key).isSome && !scan.index.contains key then
      s.setMetadataIfAbsent key (CacheInner.recoveredMeta key)
    else s

end DiskScan

/-- The operation of a line, `none` for one that does not decode. -/
def opOf (line : String) : Option CacheManifestOp := CacheManifestOp.decodeLine (utf8Bytes line)

/-- The loop over the lines. -/
def scanLines (blockFile : CacheKey → Option Nat) :
    List Bytes → DiskScan → CacheInner → Except ManifestError DiskScan × CacheInner
  | [], scan, s => (.ok scan, s)
  | text :: rest, scan, s =>
    match fromUtf8 text with
    | none => (.error .notUtf8, s)
    | some line =>
      match opOf (trim line) with
      | none => scanLines blockFile rest scan s
      | some op =>
        scanLines blockFile rest (scan.apply blockFile op) (scan.noteMetadata blockFile s op)

/-- `recover_disk_index_locked`, of the lines of the manifest, if there is one. -/
def recoverDiskIndexLocked (blockFile : CacheKey → Option Nat) (s : CacheInner)
    (manifest : Option (List Bytes)) : Except ManifestError Unit × CacheInner :=
  match manifest with
  | none => (.ok (), { s with diskIndex := ∅, ssdBytes := 0 })
  | some texts =>
    match scanLines blockFile texts .empty s with
    | (.error err, s) => (.error err, s)
    | (.ok scan, s) =>
      (.ok (), { s with
        diskIndex := scan.index
        diskOrder := CacheKeyOrder.fromIter scan.order
        ssdBytes := scan.bytes })

/-! ## What recovery is to leave -/

/-- The operations of a manifest, of its lines as they are written. -/
def opsOf (texts : List Bytes) : List CacheManifestOp := (texts.filterMap fromUtf8).filterMap opOf

def CacheManifestOp.key : CacheManifestOp → CacheKey
  | .put key _ | .delete key => key

def CacheManifestOp.isPut : CacheManifestOp → Bool
  | .put .. => true
  | .delete _ => false

/-- The last operation on a key is a put. -/
def lastIsPut (ops : List CacheManifestOp) (key : CacheKey) : Bool :=
  ((ops.filter (·.key = key)).getLast?).any CacheManifestOp.isPut

/-- The count is the sum of the lengths, the order has the keys of the index, and these are the keys
whose last operation is a put and whose block file exists. -/
def Consistent (blockFile : CacheKey → Option Nat) (ops : List CacheManifestOp) (s : CacheInner) :
    Prop :=
  s.ssdBytes = s.diskIndex.weight id ∧
    (∀ key, key ∈ s.diskOrder ↔ s.diskIndex.contains key = true) ∧
    ∀ key, s.diskIndex.contains key = true ↔ lastIsPut ops key = true ∧
      (blockFile key).isSome = true

/-- The index alone after an operation. -/
def listed (blockFile : CacheKey → Option Nat) (index : Table CacheKey Nat) :
    CacheManifestOp → Table CacheKey Nat
  | .delete key => index.remove key
  | .put key blockLen =>
    ((blockFile key).map fun fileLen => index.set key (max fileLen blockLen)).getD index

/-- A put finds the key under the same length, or the sum with the new length is a word. -/
def KeepsCount (blockFile : CacheKey → Option Nat) (index : Table CacheKey Nat) :
    CacheManifestOp → Prop
  | .delete _ => True
  | .put key blockLen => ∀ fileLen ∈ blockFile key,
      match index.get? key with
      | some length => max fileLen blockLen = length
      | none => index.weight id + max fileLen blockLen ≤ u64Max

/-- The index after a line that has this operation, or none. -/
def listedBy (blockFile : CacheKey → Option Nat) (index : Table CacheKey Nat)
    (op : Option CacheManifestOp) : Table CacheKey Nat := op.elim index (listed blockFile index)

/-- Every line lists the same keys trimmed as it does written, and its put meets the condition, each
at the index the lines before it make. -/
def Steady (blockFile : CacheKey → Option Nat) : List String → Table CacheKey Nat → Prop
  | [], _ => True
  | line :: rest, index =>
    (∀ key, (listedBy blockFile index (opOf line)).contains key =
      (listedBy blockFile index (opOf (trim line))).contains key) ∧
    (∀ op ∈ opOf (trim line), KeepsCount blockFile index op) ∧
    Steady blockFile rest (listedBy blockFile index (opOf (trim line)))

variable {bf : CacheKey → Option Nat}

variable {scan : DiskScan}

namespace DiskScan

variable (bf) in
theorem index_apply (scan : DiskScan) (op : CacheManifestOp) :
    (scan.apply bf op).index = listed bf scan.index op := by
  cases op with
  | delete key => rfl
  | put key bl =>
    rw [apply, listed]
    cases bf key with
    | none => rfl
    | some fileLen =>
      dsimp only
      split <;> rfl

/-- An operation keeps a right count right exactly when it meets the condition. -/
theorem bytes_apply_iff (h : scan.bytes = scan.index.weight id) (op : CacheManifestOp) :
    (scan.apply bf op).bytes = (scan.apply bf op).index.weight id ↔
      KeepsCount bf scan.index op := by
  cases op with
  | delete key =>
    have hs := Table.weight_remove id scan.index key
    refine iff_of_true ?_ trivial
    change scan.bytes - (scan.index.get? key).getD 0 = (scan.index.remove key).weight id
    cases hg : scan.index.get? key with
    | none =>
      rw [hg] at hs
      simp only [getD_none, elim_none] at hs ⊢
      omega
    | some length =>
      rw [hg] at hs
      simp only [getD_some, elim_some, id] at hs ⊢
      omega
  | put key bl =>
    rw [apply, KeepsCount]
    cases hf : bf key with
    | none => simpa using h
    | some fileLen =>
      have hs := Table.weight_set id scan.index key (max fileLen bl)
      simp only [mem_some_iff, forall_eq', Table.contains]
      rcases eq_none_or_eq_some (scan.index.get? key) with hg | ⟨length, hg⟩
      · simp only [hg, isSome_none, Bool.false_eq_true, if_false, elim_none, id,
          saturatingAdd] at hs ⊢
        omega
      · simp only [hg, isSome_some, if_true, elim_some, id] at hs ⊢
        omega

theorem mem_order_apply (h : ∀ key, key ∈ scan.order ↔ scan.index.contains key = true)
    (op : CacheManifestOp) (key : CacheKey) :
    key ∈ (scan.apply bf op).order ↔ (scan.apply bf op).index.contains key = true := by
  cases op with
  | delete o =>
    simp only [apply, mem_filter, decide_eq_true_eq, h, Table.contains, Table.get?_remove]
    split <;> simp_all
  | put o bl =>
    rw [apply]
    cases bf o with
    | none => exact h key
    | some fileLen =>
      dsimp only
      split
      · next hl =>
        simp only [h, Table.contains, Table.get?_set] at hl ⊢
        split <;> simp_all
      · simp only [mem_append, mem_singleton, h, Table.contains, Table.get?_set]
        split <;> simp_all

end DiskScan

theorem contains_listed (i : Table CacheKey Nat) (op : CacheManifestOp) (key : CacheKey) :
    (listed bf i op).contains key =
      if op.key = key then op.isPut && (bf key).isSome || (op.isPut && i.contains key)
      else i.contains key := by
  by_cases hk : op.key = key
  · subst hk
    rw [if_pos rfl]
    cases op with
    | delete o => simp [listed, Table.contains, Table.get?_remove, CacheManifestOp.key,
      CacheManifestOp.isPut]
    | put o bl =>
      rw [listed, CacheManifestOp.key, CacheManifestOp.isPut]
      cases bf o with
      | none => simp
      | some fileLen => simp [Table.contains]
  · rw [if_neg hk]
    cases op with
    | delete o =>
      have hne : key ≠ o := fun heq => hk heq.symm
      simp [listed, Table.contains, Table.get?_remove, hne]
    | put o bl =>
      have hne : key ≠ o := fun heq => hk heq.symm
      rw [listed]
      cases bf o with
      | none => rfl
      | some fileLen => simp [Table.contains, Table.get?_set, hne]

theorem lastIsPut_concat (ops : List CacheManifestOp) (op : CacheManifestOp) (key : CacheKey) :
    lastIsPut (ops ++ [op]) key = if op.key = key then op.isPut else lastIsPut ops key := by
  rw [lastIsPut, filter_append, filter_singleton]
  by_cases hk : op.key = key
  · simp [hk]
  · simp [hk, lastIsPut]

theorem contains_foldl_listed (ops : List CacheManifestOp) (key : CacheKey) :
    (ops.foldl (listed bf) ∅).contains key = true ↔ lastIsPut ops key = true ∧
      (bf key).isSome = true := by
  induction ops using List.reverseRecOn with
  | nil => simp [Table.contains, lastIsPut]
  | append_singleton ops op ih =>
    rw [foldl_append, foldl_cons, foldl_nil, contains_listed, lastIsPut_concat]
    split
    · simp only [Bool.or_eq_true, Bool.and_eq_true, ih]
      tauto
    · exact ih

theorem contains_listedBy_congr {i i' : Table CacheKey Nat}
    (h : ∀ key, i.contains key = i'.contains key) (op : Option CacheManifestOp) (key : CacheKey) :
    (listedBy bf i op).contains key = (listedBy bf i' op).contains key := by
  cases op with
  | none => exact h key
  | some op =>
    change (listed bf i op).contains key = (listed bf i' op).contains key
    rw [contains_listed, contains_listed, h]

namespace DiskScan

/-- One line. -/
def readLine (blockFile : CacheKey → Option Nat) (scan : DiskScan) (line : String) : DiskScan :=
  (opOf (trim line)).elim scan (scan.apply blockFile)

theorem index_readLine (scan : DiskScan) (line : String) :
    (scan.readLine bf line).index = listedBy bf scan.index (opOf (trim line)) := by
  rw [readLine, listedBy]
  cases opOf (trim line) with
  | none => rfl
  | some op => exact index_apply bf scan op

theorem mem_order_replay {ls : List String}
    (h : ∀ key, key ∈ scan.order ↔ scan.index.contains key = true) (key : CacheKey) :
    key ∈ (ls.foldl (readLine bf) scan).order ↔
      (ls.foldl (readLine bf) scan).index.contains key = true := by
  induction ls generalizing scan with
  | nil => exact h key
  | cons line rest ih =>
    refine ih fun key => ?_
    rw [readLine]
    cases opOf (trim line) with
    | none => exact h key
    | some op => exact mem_order_apply h op key

/-- The count is the sum of the lengths, and the keys are those of `written`. -/
def Right (written : Table CacheKey Nat) (scan : DiskScan) : Prop :=
  scan.bytes = scan.index.weight id ∧ ∀ key, written.contains key = scan.index.contains key

theorem right_readLine_iff {written : Table CacheKey Nat} (h : scan.Right written) (line : String) :
    (scan.readLine bf line).Right (listedBy bf written (opOf line)) ↔
      (∀ key, (listedBy bf scan.index (opOf line)).contains key =
        (listedBy bf scan.index (opOf (trim line))).contains key) ∧
      ∀ op ∈ opOf (trim line), KeepsCount bf scan.index op := by
  rw [Right, and_comm]
  refine and_congr (forall_congr' fun key => ?_) ?_
  · rw [index_readLine, contains_listedBy_congr h.2]
  · rw [readLine]
    cases opOf (trim line) with
    | none => exact iff_of_true h.1 fun op hop => absurd hop (Option.not_mem_none op)
    | some op =>
      rw [elim_some, bytes_apply_iff h.1]
      simp only [mem_some_iff, forall_eq']

/-- The scan is right after every line exactly when no line breaks it. -/
theorem right_replay_iff {written : Table CacheKey Nat} {ls : List String}
    (h : scan.Right written) :
    (∀ n, ((ls.take n).foldl (readLine bf) scan).Right
        (((ls.take n).filterMap opOf).foldl (listed bf) written)) ↔
      Steady bf ls scan.index := by
  induction ls generalizing scan written with
  | nil => exact iff_of_true (fun n => by rw [take_nil]; exact h) trivial
  | cons line rest ih =>
    have ho : ∀ ls, ((line :: ls).filterMap opOf).foldl (listed bf) written =
        (ls.filterMap opOf).foldl (listed bf) (listedBy bf written (opOf line)) := by
      intro ls
      rw [filterMap_cons, listedBy]
      cases opOf line <;> rfl
    have hc : (∀ n, (((line :: rest).take n).foldl (readLine bf) scan).Right
          ((((line :: rest).take n).filterMap opOf).foldl (listed bf) written)) ↔
        ∀ n, ((rest.take n).foldl (readLine bf) (scan.readLine bf line)).Right
          (((rest.take n).filterMap opOf).foldl (listed bf)
            (listedBy bf written (opOf line))) := by
      refine ⟨fun ha n => ?_, fun ha n => ?_⟩
      · rw [← ho]
        exact ha (n + 1)
      · cases n with
        | zero => exact h
        | succ n =>
          rw [take_succ_cons, ho]
          exact ha n
    rw [hc, Steady, ← and_assoc, ← right_readLine_iff h]
    constructor
    · intro ha
      have hf := ha 0
      exact ⟨hf, index_readLine scan line ▸ (ih hf).1 ha⟩
    · rintro ⟨hf, hr⟩
      exact (ih hf).2 (index_readLine scan line ▸ hr)

end DiskScan

/-! ## Recovery -/

variable {texts : List Bytes}

theorem scanLines_ok_iff {scan' : DiskScan} {s : CacheInner} :
    (scanLines bf texts scan s).1 = .ok scan' ↔
      (∀ t ∈ texts, (fromUtf8 t).isSome = true) ∧
        scan' = (texts.filterMap fromUtf8).foldl (DiskScan.readLine bf) scan := by
  induction texts generalizing scan s with
  | nil =>
    exact ⟨fun h => ⟨by simp, (Except.ok.inj h).symm⟩, fun h => congrArg Except.ok h.2.symm⟩
  | cons t rest ih =>
    rw [scanLines, forall_mem_cons]
    cases hl : fromUtf8 t with
    | none => simp
    | some line =>
      simp only [isSome_some, true_and, filterMap_cons_some hl, foldl_cons, DiskScan.readLine]
      cases opOf (trim line) with
      | none => exact ih
      | some op => exact ih

theorem filterMap_take (h : ∀ t ∈ texts, (fromUtf8 t).isSome = true) (n : Nat) :
    (texts.take n).filterMap fromUtf8 = (texts.filterMap fromUtf8).take n := by
  induction texts generalizing n with
  | nil => rw [take_nil, filterMap_nil, take_nil]
  | cons t rest ih =>
    obtain ⟨line, hl⟩ := isSome_iff_exists.1 (h t mem_cons_self)
    cases n with
    | zero => rfl
    | succ n =>
      rw [take_succ_cons, filterMap_cons_some hl, filterMap_cons_some hl, take_succ_cons,
        ih fun t ht => h t (mem_cons_of_mem _ ht)]

theorem recoverDiskIndexLocked_some (h : ∀ tx ∈ texts, (fromUtf8 tx).isSome = true)
    (s : CacheInner) :
    Consistent bf (opsOf texts) (recoverDiskIndexLocked bf s (some texts)).2 ↔
      ((texts.filterMap fromUtf8).foldl (DiskScan.readLine bf) .empty).Right
        ((opsOf texts).foldl (listed bf) ∅) := by
  have hs : (scanLines bf texts .empty s).1 = .ok _ := scanLines_ok_iff.2 ⟨h, rfl⟩
  rw [recoverDiskIndexLocked]
  rcases hr : scanLines bf texts .empty s with ⟨r, t⟩
  rw [hr] at hs
  obtain rfl : r = _ := hs
  refine and_congr_right fun _ => ?_
  refine (and_iff_right fun key => ?_).trans (forall_congr' fun key => ?_)
  · exact CacheKeyOrder.mem_fromIter.trans
      (DiskScan.mem_order_replay (fun key => by simp [DiskScan.empty, Table.contains]) key)
  · rw [← contains_foldl_listed]
    exact iff_comm.trans Bool.eq_iff_iff.symm

/-- Recovery is consistent after every line of the manifest, or without one, exactly when every line
lists the same keys trimmed as written, no put changes the length of a listed key, no sum passes a
word, and an order that nothing resets was empty. -/
theorem recoverDiskIndex_consistent_iff (bf : CacheKey → Option Nat) (s : CacheInner)
    (manifest : Option (List Bytes))
    (ho : (recoverDiskIndexLocked bf s manifest).1 = .ok ()) :
    (∀ n, Consistent bf (opsOf ((manifest.getD []).take n))
        (recoverDiskIndexLocked bf s (manifest.map (·.take n))).2) ↔
      match manifest with
      | none => ∀ key, key ∉ s.diskOrder
      | some texts => Steady bf (texts.filterMap fromUtf8) ∅ := by
  cases manifest with
  | none =>
    simp [recoverDiskIndexLocked, Consistent, Table.contains, opsOf, lastIsPut, Table.weight_empty]
  | some texts =>
    have hv : ∀ tx ∈ texts, (fromUtf8 tx).isSome = true := by
      rw [recoverDiskIndexLocked] at ho
      rcases hr : scanLines bf texts .empty s with ⟨err | scan, t⟩
      · rw [hr] at ho
        cases ho
      · exact (scanLines_ok_iff.1 (congrArg Prod.fst hr)).1
    have hi : DiskScan.empty.Right ∅ := ⟨rfl, fun _ => rfl⟩
    refine Iff.trans (forall_congr' fun n => ?_) (DiskScan.right_replay_iff hi)
    rw [← filterMap_take hv]
    exact recoverDiskIndexLocked_some (fun tx ht => hv tx (mem_of_mem_take ht)) s

/-- Every key has a block file of five bytes. -/
def fiveBytes : CacheKey → Option Nat := fun _ => some 5

/-- A cache recovered from the lines of these operations. -/
def recoveredFrom (ops : List CacheManifestOp) : Except ManifestError Unit × CacheInner :=
  recoverDiskIndexLocked fiveBytes (CacheInner.openFresh (.new 0 0 100))
    (some (ops.map CacheManifestOp.encodeLine))

/-- Two puts of one key, of five and of so many bytes. -/
def putTwice (length : Nat) : List CacheManifestOp :=
  [.put (.string 0 "k") 5, .put (.string 0 "k") length]

/-- Two puts of the same length are consistent. -/
theorem recoverDiskIndex_consistent_iff_again :
    Consistent fiveBytes (putTwice 5) (recoveredFrom (putTwice 5)).2 := by
  obtain ⟨line, hl, hw, hrd⟩ : ∃ line,
      ((putTwice 5).map CacheManifestOp.encodeLine).filterMap fromUtf8 = [line, line] ∧
      opOf line = some (.put (.string 0 "k") 5) ∧
      opOf (trim line) = some (.put (.string 0 "k") 5) :=
    ⟨(fromUtf8 (CacheManifestOp.encodeLine (.put (.string 0 "k") 5))).getD "", by decide +kernel⟩
  have hs : Steady fiveBytes [line, line] ∅ := by
    simp only [Steady, hw, hrd, mem_some_iff, forall_eq', implies_true, true_and, and_true]
    refine ⟨?_, ?_⟩
    · rintro _ ⟨⟩
      show (∅ : Table CacheKey Nat).weight id + 5 ≤ u64Max
      decide
    · rintro _ ⟨⟩
      rfl
  have ho : (recoveredFrom (putTwice 5)).1 = .ok () := by
    have hd : (recoveredFrom (putTwice 5)).1.toOption = some () := by decide +kernel
    rcases hr : (recoveredFrom (putTwice 5)).1 with err | _
    · rw [hr] at hd
      cases hd
    · rfl
  rw [← hl] at hs
  have hc := (recoverDiskIndex_consistent_iff fiveBytes _ _ ho).2 hs 2
  have hos : opsOf (((putTwice 5).map CacheManifestOp.encodeLine).take 2) = putTwice 5 := by
    decide +kernel
  rw [getD_some, hos] at hc
  exact hc

/-- A key whose lines end in an empty field. -/
def bareKey : CacheKey := { shardId := 0, recordKey := "k", namespace_ := "", selector := "" }

/-- A put of seven bytes lists seven and counts five; the delete of a key with an empty selector is
not heard. -/
theorem recovery_drifts :
    (recoveredFrom (putTwice 7)).2.ssdBytes = 5 ∧
      (recoveredFrom (putTwice 7)).2.diskIndex.weight id = 7 ∧
      lastIsPut [.put bareKey 5, .delete bareKey] bareKey = false ∧
      (recoveredFrom [.put bareKey 5, .delete bareKey]).2.diskIndex.contains bareKey = true := by
  decide +kernel

end MatrixCache.Manifest
