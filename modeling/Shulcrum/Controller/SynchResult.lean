import Shulcrum.Controller.SynchRun
import Shulcrum.Mempool.DspRun

/-!
# The mempool after a synch pass

A pass begins with the reply to `getrawmempool` and ends when all listed new
txids have a reply.  The mempool it leaves is described by the mempool it found,
the listed txids and the replies, whatever their order and the order of the hash
maps.

**Results.**
* `synch_result`: the mempool after a pass that succeeds.
-/

namespace Shulcrum
namespace SynchMempool

open BTC TreeMap Mempool Sweep

namespace SynchMempoolTask

/-- The replies to `getrawtransaction` among the events. -/
def replies (es : List Event) : List (TxHash × TxReply) :=
  es.filterMap fun e =>
    match e with
    | .rawTransaction hash reply => some (hash, reply)
    | _ => none

section Spec

variable (cfg : Config) (M : Mempool) (R : List TxHash) (rs : List (TxHash × TxReply))

/-- A listed txid that is to be downloaded. -/
def IsNew (h : TxHash) : Prop := h ∈ R ∧ h ∉ M.txs ∧ h ∉ cfg.txnIgnoreSet

/-- The transaction was downloaded. -/
def Fetched (nt : NewTx) : Prop := (nt.hash, .tx nt) ∈ rs ∧ mwebOnly cfg nt = false

/-- The download failed, or the transaction was ignored. -/
def Missed (h : TxHash) : Prop :=
  (h, .error) ∈ rs ∨ ∃ nt, (h, .tx nt) ∈ rs ∧ mwebOnly cfg nt = true

/-- An ancestor through downloaded transactions failed or was ignored. -/
inductive HasMissedAncestor : NewTx → Prop
  | parent {nt : NewTx} {h : TxHash} : Fetched cfg rs nt → h ∈ prevTxIds nt →
      Missed cfg rs h → HasMissedAncestor nt
  | through {nt p : NewTx} : Fetched cfg rs nt → p.hash ∈ prevTxIds nt →
      HasMissedAncestor p → HasMissedAncestor nt

/-- The txids of the mempool a pass should leave. -/
def PassResult (mp : Mempool) : Prop :=
  ∀ h, h ∈ mp.txs ↔ (h ∈ R ∧ h ∈ M.txs) ∨
    (IsNew cfg M R h ∧ ∃ nt, nt.hash = h ∧ Fetched cfg rs nt ∧ ¬ HasMissedAncestor cfg rs nt)

/-- What a reply that was handled has left. -/
def Settled (t : SynchMempoolTask) (hash : TxHash) : TxReply → Prop
  | .unreadable => True
  | .tx nt => if mwebOnly cfg nt then hash ∈ t.txsIgnored
      else nt ∈ t.txsDownloaded ∨ hash ∈ t.txsWaitingForResponse
  | .error => hash ∈ t.txsFailedDownload

/-- A pass while its downloads are under way. -/
structure Loading (t : SynchMempoolTask) : Prop where
  state : t.state = .dlTxs
  quiet : .success ∉ t.emitted
  mem : ∀ h, h ∈ t.mempool.txs ↔ h ∈ R ∧ h ∈ M.txs
  isNew : ∀ h, h ∈ t.txsNeedingDownload ∨ h ∈ t.txsWaitingForResponse ∨
    h ∈ t.txsDownloaded.map NewTx.hash → IsNew cfg M R h
  downloaded : ∀ nt ∈ t.txsDownloaded, Fetched cfg rs nt
  failed : ∀ h ∈ t.txsFailedDownload, (h, .error) ∈ rs
  ignored : ∀ h ∈ t.txsIgnored, ∃ nt, (h, .tx nt) ∈ rs ∧ mwebOnly cfg nt = true
  replied : ∀ h r, (h, r) ∈ rs → h ∉ t.txsNeedingDownload ∧
    .getrawtransaction h ∉ t.inFlight ∧ Settled cfg t h r

/-- A pass: under way, given up, or ended with the right mempool. -/
inductive PassInv (t : SynchMempoolTask) : Prop
  | loading : Loading cfg M R rs t → PassInv t
  | stopped : t.state ≠ .dlTxs → .success ∉ t.emitted → PassInv t
  | done : t.state = .processingResults → PassResult cfg M R rs t.mempool → PassInv t

end Spec

variable {cfg : Config} {ord : Orders} {M : Mempool} {R : List TxHash}
  {rs : List (TxHash × TxReply)} {t : SynchMempoolTask}

/-- When nothing is waited for, the sets of the task say what the replies were. -/
theorem Loading.missed_iff (h : Loading cfg M R rs t) (hash : TxHash) :
    Missed cfg rs hash ↔ hash ∈ t.txsFailedDownload ∨ hash ∈ t.txsIgnored := by
  constructor
  · rintro (he | ⟨nt, hm, hweb⟩)
    · exact .inl (h.replied _ _ he).2.2
    · have hs := (h.replied _ _ hm).2.2
      simp only [Settled, hweb, if_true] at hs
      exact .inr hs
  · rintro (hf | hi)
    · exact .inl (h.failed hash hf)
    · exact .inr (h.ignored hash hi)

theorem Loading.fetched_iff (h : Loading cfg M R rs t) (hwait : t.txsWaitingForResponse = [])
    (nt : NewTx) : Fetched cfg rs nt ↔ nt ∈ t.txsDownloaded := by
  refine ⟨?_, h.downloaded nt⟩
  rintro ⟨hm, hweb⟩
  have hs := (h.replied _ _ hm).2.2
  simp only [Settled, hweb, Bool.false_eq_true, if_false] at hs
  refine hs.resolve_right fun hw => ?_
  rw [hwait] at hw
  cases hw

theorem Loading.hasMissedAncestor_iff (h : Loading cfg M R rs t)
    (hwait : t.txsWaitingForResponse = []) (nt : NewTx) :
    HasMissedAncestor cfg rs nt ↔
      HasFailedParent t.txsFailedDownload t.txsIgnored t.txsDownloaded nt := by
  constructor
  · intro hm
    induction hm with
    | parent hf hp hmiss =>
        exact .start ((h.fetched_iff hwait _).mp hf) hp ((h.missed_iff _).mp hmiss)
    | through hf hp _ ih => exact .through ((h.fetched_iff hwait _).mp hf) hp ih
  · intro hf
    induction hf with
    | start hx hk hs => exact .parent (h.downloaded _ hx) hk ((h.missed_iff _).mpr hs)
    | through hx hk _ ih => exact .through (h.downloaded _ hx) hk ih

/-- A call of `process` during the downloads. -/
theorem Loading.process (h : Loading cfg M R rs t) (hd : Downloading t)
    (hi : Indexed t.mempool) : PassInv cfg M R rs (process cfg ord t) := by
  have hcases : Process cfg t (SynchMempoolTask.process cfg ord t) :=
    process_cases (by simp [h.state]) fun _ => hd.nodup
  generalize SynchMempoolTask.process cfg ord t = t' at hcases
  cases hcases with
  | start hst =>
      rw [h.state] at hst
      cases hst
  | idle => exact .loading h
  | request n =>
      refine .loading ⟨h.state, h.quiet, h.mem, ?_, h.downloaded, h.failed, h.ignored, ?_⟩
      · rintro g (hg | hg | hg)
        · exact h.isNew g (.inl (List.mem_of_mem_drop hg))
        · rcases List.mem_append.mp hg with hg | hg
          · exact h.isNew g (.inr (.inl hg))
          · exact h.isNew g (.inl (List.mem_of_mem_take hg))
        · exact h.isNew g (.inr (.inr hg))
      · intro g r hr
        obtain ⟨hneed, hflight, hsettled⟩ := h.replied g r hr
        refine ⟨fun hm => hneed (List.mem_of_mem_drop hm), ?_, ?_⟩
        · rw [List.mem_append, not_or]
          refine ⟨hflight, fun hm => ?_⟩
          obtain ⟨g', hg', he⟩ := List.mem_map.mp hm
          cases he
          exact hneed (List.mem_of_mem_take hg')
        · cases r with
          | unreadable => trivial
          | error => exact hsettled
          | tx nt =>
              simp only [Settled] at hsettled ⊢
              split_ifs at hsettled ⊢
              · exact hsettled
              · exact hsettled.imp_right (List.mem_append_left _)
  | finish _ _ hwait hfinish =>
      cases hfinish with
      | errored => exact .stopped (by simp [emit]) (mt mem_emitted_emit.mp h.quiet)
      | redo _ _ _ =>
          obtain ⟨again, emitted, heq, hem⟩ := redoFromStart_eq _
          rw [heq]
          exact .stopped (by simp [clear]) fun hs => h.quiet (hem.mp hs)
      | @success cache kept failed r hnodup hkept hadd =>
          have hfresh : ∀ nt ∈ kept, nt.hash ∉ t.mempool.txs := fun nt hnt =>
            hd.fresh nt.hash (.inr (.inr (List.mem_map_of_mem ((hkept nt).mp hnt).1)))
          obtain ⟨-, -, -, hmem⟩ := addNewTxs_covers hi hnodup hfresh hadd
            (T := t.txidsAffected) fun nt hnt =>
              hd.noted nt.hash (List.mem_map_of_mem ((hkept nt).mp hnt).1)
          refine .done rfl fun g => ?_
          refine (hmem g).trans ?_
          rw [h.mem, List.mem_map]
          refine or_congr_right ?_
          constructor
          · rintro ⟨nt, hnt, rfl⟩
            obtain ⟨hdown, hno⟩ := (hkept nt).mp hnt
            refine ⟨h.isNew nt.hash (.inr (.inr (List.mem_map_of_mem hdown))), nt, rfl,
              h.downloaded nt hdown, ?_⟩
            rw [h.hasMissedAncestor_iff hwait]
            exact hno
          · rintro ⟨-, nt, rfl, hf, hno⟩
            rw [h.hasMissedAncestor_iff hwait] at hno
            exact ⟨nt, (hkept nt).mpr ⟨(h.fetched_iff hwait nt).mp hf, hno⟩, rfl⟩

/-- The downloads begin. -/
theorem Loading.startDownloads (h : Loading cfg M R rs { t with state := .dlTxs })
    (hd : Downloading { t with state := .dlTxs }) (hi : Indexed t.mempool) (scan : Scan) :
    PassInv cfg M R rs (startDownloads cfg ord t scan) := by
  refine Loading.process ⟨rfl, h.quiet, h.mem, h.isNew, h.downloaded, h.failed, h.ignored,
    h.replied⟩ ?_ hi
  exact ⟨hd.fresh, hd.nodup, hd.noted, hd.once, hd.inFlight, hd.requests⟩

/-- Nothing was downloaded yet. -/
theorem loading_of_clean (hquiet : .success ∉ t.emitted) (hwait : t.txsWaitingForResponse = [])
    (hdown : t.txsDownloaded = []) (hfailed : t.txsFailedDownload = ∅)
    (hignored : t.txsIgnored = ∅) (hmem : ∀ h, h ∈ t.mempool.txs ↔ h ∈ R ∧ h ∈ M.txs)
    (hneed : ∀ h ∈ t.txsNeedingDownload, IsNew cfg M R h) :
    Loading cfg M R [] { t with state := .dlTxs } := by
  refine ⟨rfl, hquiet, hmem, ?_, ?_, ?_, ?_, ?_⟩
  · rintro g (hg | hg | hg)
    · exact hneed g hg
    · simp [hwait] at hg
    · simp [hdown] at hg
  · simp [hdown]
  · simp [hfailed]
  · simp [hignored]
  · simp

/-- The reply to `getrawmempool` begins the pass. -/
theorem passInv_onRawMempool (h : TaskInv t) (hreq : .getrawmempool ∈ t.inFlight)
    (hnodup : R.Nodup) :
    PassInv cfg t.mempool R [] (onRawMempool cfg ord
      { t with inFlight := t.inFlight.erase .getrawmempool } (R.map some)) := by
  obtain ⟨hst, hclean, hf⟩ := h.awaiting hreq
  have hq := h.quiet (by simp [hst])
  have hnil : t.inFlight.erase .getrawmempool = [] := by simp [hf]
  have hlist : ∀ g, some g ∈ R.map some ↔ g ∈ R := fun g =>
    List.mem_map_of_injective (Option.some_injective _)
  rw [hnil]
  have hlisted : Listed cfg ord { t with inFlight := [] } (R.map some)
      (onRawMempool cfg ord { t with inFlight := [] } (R.map some)) :=
    listed_onRawMempool (t := { t with inFlight := [] }) h.indexed hclean.needing (by simpa)
  generalize onRawMempool cfg ord { t with inFlight := [] } (R.map some) = t' at hlisted
  cases hlisted with
  | invalid hnone => simp at hnone
  | same hn hneed hall =>
      refine Loading.startDownloads (loading_of_clean ?_ ?_ ?_ ?_ ?_ ?_ ?_)
        (downloading_of_clean ?_ ?_ rfl hn ?_) ?_ _
      · exact hq
      · exact hclean.waiting
      · exact hclean.downloaded
      · exact hclean.failed
      · exact hclean.ignored
      · exact fun g => ⟨fun hg => ⟨(hlist g).mp (hall g hg), hg⟩, And.right⟩
      · exact fun g hg => ((hneed g).mp hg).imp_left (hlist g).mp
      · exact hclean.waiting
      · exact hclean.downloaded
      · exact fun g hg => ((hneed g).mp hg).2.1
      · exact h.indexed
  | @dropped scan needing gone r hn hneed hdrop hmem =>
      refine Loading.startDownloads (loading_of_clean ?_ ?_ ?_ ?_ ?_ ?_ ?_)
        (downloading_of_clean ?_ ?_ rfl hn ?_) ?_ _
      · exact hq
      · exact hclean.waiting
      · exact hclean.downloaded
      · exact hclean.failed
      · exact hclean.ignored
      · intro g
        refine (hmem g).trans ?_
        rw [hlist, and_comm]
      · exact fun g hg => ((hneed g).mp hg).imp_left (hlist g).mp
      · exact hclean.waiting
      · exact hclean.downloaded
      · exact fun g hg hin => ((hneed g).mp hg).2.1 ((hmem g).mp hin).1
      · exact (dropTxs_covers h.indexed hdrop).1
  | redo _ =>
      obtain ⟨again, emitted, heq, hem⟩ := redoFromStart_eq _
      rw [heq]
      exact .stopped (by simp [clear]) fun hs => hq (hem.mp hs)

/-- A reply is recorded. -/
structure Recorded (cfg : Config) (t : SynchMempoolTask) (hash : TxHash) (r : TxReply)
    (u : SynchMempoolTask) : Prop where
  state : u.state = t.state
  quiet : .success ∈ u.emitted → .success ∈ t.emitted
  mempool : u.mempool = t.mempool
  needing : u.txsNeedingDownload = t.txsNeedingDownload
  inFlight : u.inFlight = t.inFlight.erase (.getrawtransaction hash)
  waiting : ∀ g ∈ u.txsWaitingForResponse, g ∈ t.txsWaitingForResponse
  waits : ∀ g ∈ t.txsWaitingForResponse, g ≠ hash → g ∈ u.txsWaitingForResponse
  downloaded : ∀ nt ∈ u.txsDownloaded, nt ∈ t.txsDownloaded ∨
    (nt.hash = hash ∧ r = .tx nt ∧ mwebOnly cfg nt = false)
  keeps : ∀ nt ∈ t.txsDownloaded, nt ∈ u.txsDownloaded
  failed : ∀ g, g ∈ u.txsFailedDownload ↔ g ∈ t.txsFailedDownload ∨ (g = hash ∧ r = .error)
  ignored : ∀ g, g ∈ u.txsIgnored ↔ g ∈ t.txsIgnored ∨
    (g = hash ∧ ∃ nt, r = .tx nt ∧ mwebOnly cfg nt = true)
  settled : Settled cfg u hash r

/-- A recorded reply is one more reply of the pass. -/
theorem Loading.record {u : SynchMempoolTask} {hash : TxHash} {r : TxReply}
    (h : Loading cfg M R rs t) (hd : Downloading t)
    (hreq : .getrawtransaction hash ∈ t.inFlight) (hu : Recorded cfg t hash r u) :
    Loading cfg M R (rs ++ [(hash, r)]) u := by
  obtain ⟨g, hwait, he⟩ := hd.inFlight _ hreq
  cases he
  refine ⟨hu.state.trans h.state, mt hu.quiet h.quiet, ?_, ?_, ?_, ?_, ?_, ?_⟩
  · rw [hu.mempool]
    exact h.mem
  · rintro g (hg | hg | hg)
    · exact h.isNew g (.inl (hu.needing ▸ hg))
    · exact h.isNew g (.inr (.inl (hu.waiting g hg)))
    · obtain ⟨nt, hnt, rfl⟩ := List.mem_map.mp hg
      rcases hu.downloaded nt hnt with hold | ⟨hhash, -, -⟩
      · exact h.isNew nt.hash (.inr (.inr (List.mem_map_of_mem hold)))
      · exact h.isNew nt.hash (.inr (.inl (hhash ▸ hwait)))
  · intro nt hnt
    rcases hu.downloaded nt hnt with hold | ⟨rfl, rfl, hweb⟩
    · exact (h.downloaded nt hold).imp_left (List.mem_append_left _)
    · exact ⟨by simp, hweb⟩
  · intro g hg
    rcases (hu.failed g).mp hg with hold | ⟨rfl, rfl⟩
    · exact List.mem_append_left _ (h.failed g hold)
    · simp
  · intro g hg
    rcases (hu.ignored g).mp hg with hold | ⟨rfl, nt, rfl, hweb⟩
    · obtain ⟨nt, hnt, hweb⟩ := h.ignored g hold
      exact ⟨nt, List.mem_append_left _ hnt, hweb⟩
    · exact ⟨nt, by simp, hweb⟩
  · intro g r' hr
    rw [hu.needing, hu.inFlight]
    rcases List.mem_append.mp hr with hold | hnew
    · obtain ⟨hneed, hflight, hsettled⟩ := h.replied g r' hold
      have hne : g ≠ hash := by
        rintro rfl
        exact hflight hreq
      refine ⟨hneed, fun hm => hflight (List.mem_of_mem_erase hm), ?_⟩
      cases r' with
      | unreadable => trivial
      | error => exact (hu.failed g).mpr (.inl hsettled)
      | tx nt =>
          simp only [Settled] at hsettled ⊢
          split_ifs at hsettled ⊢
          · exact (hu.ignored g).mpr (.inl hsettled)
          · exact hsettled.imp (hu.keeps nt) fun hw => hu.waits g hw hne
    · rw [List.mem_singleton, Prod.mk.injEq] at hnew
      obtain ⟨rfl, rfl⟩ := hnew
      refine ⟨fun hneed => hd.once.2 g hneed hwait, fun hm => ?_, hu.settled⟩
      exact ((hd.requests.mem_erase_iff).mp hm).1 rfl

/-- A reply to `getrawtransaction` during the downloads. -/
theorem Loading.onRawTransaction (h : Loading cfg M R rs t) (hi : TaskInv t) {hash : TxHash}
    (hreq : .getrawtransaction hash ∈ t.inFlight) (r : TxReply) :
    PassInv cfg M R (rs ++ [(hash, r)]) (onRawTransaction cfg ord
      { t with inFlight := t.inFlight.erase (.getrawtransaction hash) } hash r) := by
  have hd := hi.downloading h.state
  obtain ⟨g, hwait, he⟩ := hd.inFlight _ hreq
  cases he
  have hfresh : hash ∉ t.mempool.txs := hd.fresh hash (.inr (.inl hwait))
  have hreplied : Replied cfg ord
      { t with inFlight := t.inFlight.erase (.getrawtransaction hash) } hash r
      (SynchMempoolTask.onRawTransaction cfg ord
        { t with inFlight := t.inFlight.erase (.getrawtransaction hash) } hash r) :=
    replied_onRawTransaction _ hash r
  generalize SynchMempoolTask.onRawTransaction cfg ord
    { t with inFlight := t.inFlight.erase (.getrawtransaction hash) } hash r = t' at hreplied
  have herase : ∀ g ∈ t.txsWaitingForResponse, g ≠ hash →
      g ∈ t.txsWaitingForResponse.erase hash := fun g hg hne => (List.mem_erase_of_ne hne).mpr hg
  cases hreplied with
  | unreadable =>
      refine .loading (h.record hd hreq ⟨rfl, mem_emitted_emit.mp, rfl, rfl, rfl, ?_, ?_, ?_, ?_,
        ?_, ?_, trivial⟩)
      · exact fun _ => id
      · exact fun _ hg _ => hg
      · exact fun _ => .inl
      · exact fun _ => id
      · simp [emit]
      · simp [emit]
  | @refused nt hweb =>
      refine .loading (h.record hd hreq ⟨rfl, mem_emitted_emit.mp, rfl, rfl, rfl, ?_, ?_, ?_, ?_,
        ?_, ?_, ?_⟩)
      · exact fun _ => id
      · exact fun _ hg _ => hg
      · exact fun _ => .inl
      · exact fun _ => id
      · simp [emit]
      · simp [emit, hweb]
      · simp only [Settled, hweb, Bool.false_eq_true, if_false]
        exact .inr hwait
  | @ignored nt hweb =>
      refine Loading.process (h.record hd hreq ⟨rfl, id, rfl, rfl, rfl, ?_, herase, ?_, ?_, ?_,
        ?_, ?_⟩) (hd.reply hash t.txsFailedDownload (t.txsIgnored.insert hash)) hi.indexed
      · exact fun _ => List.mem_of_mem_erase
      · exact fun _ => .inl
      · exact fun _ => id
      · simp
      · intro g
        rw [mem_set_insert]
        simp [hweb, or_comm]
      · simp only [Settled, hweb, if_true]
        exact mem_set_insert.mpr (.inl rfl)
  | @downloaded nt hweb he hnew =>
      subst he
      refine Loading.process (h.record hd hreq ⟨rfl, id, rfl, rfl, rfl, ?_, herase, ?_, ?_, ?_,
        ?_, ?_⟩) ((hd.reply nt.hash t.txsFailedDownload t.txsIgnored).addTx hfresh hnew) hi.indexed
      · exact fun _ => List.mem_of_mem_erase
      · intro d hdn
        rcases List.mem_append.mp hdn with hold | hone
        · exact .inl hold
        · rw [List.mem_singleton.mp hone]
          exact .inr ⟨rfl, rfl, hweb⟩
      · exact fun _ => List.mem_append_left _
      · simp
      · simp [hweb]
      · simp only [Settled, hweb, Bool.false_eq_true, if_false]
        simp
  | failed =>
      refine Loading.process (h.record hd hreq ⟨rfl, id, rfl, rfl, rfl, ?_, herase, ?_, ?_, ?_,
        ?_, ?_⟩) (hd.reply hash (t.txsFailedDownload.insert hash) t.txsIgnored) hi.indexed
      · exact fun _ => List.mem_of_mem_erase
      · exact fun _ => .inl
      · exact fun _ => id
      · intro g
        rw [mem_set_insert]
        simp [or_comm]
      · simp
      · exact mem_set_insert.mpr (.inl rfl)
  | tooMany =>
      refine .loading (h.record hd hreq ⟨rfl, mem_emitted_emit.mp, rfl, rfl, rfl, ?_, herase, ?_,
        ?_, ?_, ?_, ?_⟩)
      · exact fun _ => List.mem_of_mem_erase
      · exact fun _ => .inl
      · exact fun _ => id
      · intro g
        simp only [emit]
        rw [mem_set_insert]
        simp [or_comm]
      · simp [emit]
      · exact mem_set_insert.mpr (.inl rfl)

/-- Every event of a pass keeps its invariant. -/
theorem PassInv.handle (h : PassInv cfg M R rs t) (hi : TaskInv t) {e : Event}
    (he : Enabled t e) (hone : ∀ txids, e ≠ .rawMempool txids) :
    PassInv cfg M R (rs ++ replies [e]) (handle cfg ord t e) := by
  cases e with
  | rawMempool txids => exact absurd rfl (hone txids)
  | rawMempoolError =>
      have hst := (hi.awaiting he).1
      rw [replies, List.filterMap_cons_none (by rfl), List.filterMap_nil, List.append_nil]
      refine .stopped (by simp [SynchMempoolTask.handle, emit, hst]) ?_
      exact mt mem_emitted_emit.mp (hi.quiet (by simp [hst]))
  | rawTransaction hash r =>
      have hst := hi.loading he
      cases h with
      | loading h => exact h.onRawTransaction hi he r
      | stopped hne _ => exact absurd hst hne
      | done hpr _ =>
          rw [hst] at hpr
          cases hpr
  | again =>
      rw [replies, List.filterMap_cons_none (by rfl), List.filterMap_nil, List.append_nil]
      have hi' := hi.setAgain
      cases h with
      | loading h =>
          exact Loading.process ⟨h.state, h.quiet, h.mem, h.isNew, h.downloaded, h.failed,
            h.ignored, h.replied⟩ (hi'.downloading h.state) hi.indexed
      | stopped hne hq =>
          have hcases : Process cfg { t with again := false }
              (SynchMempoolTask.handle cfg ord t .again) :=
            process_cases hi'.state_ne fun hst => absurd hst hne
          generalize SynchMempoolTask.handle cfg ord t .again = t' at hcases
          cases hcases with
          | start _ => exact .stopped (by simp) hq
          | idle _ => exact .stopped hne hq
          | request _ hst => exact absurd hst hne
          | finish hst _ _ _ => exact absurd hst hne
      | done hpr hres =>
          have hsame : SynchMempoolTask.handle cfg ord t .again = { t with again := false } := by
            simp [SynchMempoolTask.handle, SynchMempoolTask.process, hpr]
          rw [hsame]
          exact .done hpr hres

/-! ## Runs -/

theorem replies_append (es es' : List Event) : replies (es ++ es') = replies es ++ replies es' :=
  List.filterMap_append

/-- A pass keeps its invariant while no other one begins. -/
theorem PassInv.run {u : SynchMempoolTask} {es : List Event} (h : PassInv cfg M R rs t)
    (hi : TaskInv t) (hrun : Run cfg t es u) (hone : ∀ txids, .rawMempool txids ∉ es) :
    PassInv cfg M R (rs ++ replies es) u := by
  induction hrun with
  | nil => simpa [replies] using h
  | @snoc es u e ord hrun he ih =>
      have hes : ∀ txids, .rawMempool txids ∉ es := fun txids hm =>
        hone txids (List.mem_append_left _ hm)
      rw [replies_append, ← List.append_assoc]
      refine (ih hes).handle (taskInv_of_run hi hrun) he ?_
      rintro txids rfl
      exact hone txids (by simp)

theorem Run.eq_of_nil {u : SynchMempoolTask} (hrun : Run cfg t [] u) : u = t := by
  generalize hes : ([] : List Event) = es at hrun
  cases hrun with
  | nil => rfl
  | snoc _ _ _ => simp at hes

/-- The first event of a run. -/
theorem Run.cons_inv {u : SynchMempoolTask} {e : Event} {es : List Event}
    (hrun : Run cfg t (e :: es) u) :
    ∃ ord, Enabled t e ∧ Run cfg (SynchMempoolTask.handle cfg ord t e) es u := by
  generalize hes : e :: es = es' at hrun
  induction hrun generalizing es with
  | nil => cases hes
  | @snoc es' u e' ord hrun he' ih =>
      cases es' with
      | nil =>
          rw [List.nil_append, List.cons.injEq] at hes
          obtain ⟨rfl, rfl⟩ := hes
          obtain rfl := hrun.eq_of_nil
          exact ⟨ord, he', .nil⟩
      | cons a es' =>
          rw [List.cons_append, List.cons.injEq] at hes
          obtain ⟨rfl, rfl⟩ := hes
          obtain ⟨ord', he, hrest⟩ := ih rfl
          exact ⟨ord', he, hrest.snoc ord he'⟩

/--
A pass that succeeds leaves the listed transactions that were there, and the
listed new ones that were downloaded and have no failed or ignored ancestor among
the downloaded.  The failed-parent loop ends with these for every order of the
downloads.
-/
theorem synch_result (hM : Indexed M) {es₀ es : List Event} {t₁ : SynchMempoolTask}
    (hbefore : Run cfg { mempool := M } es₀ t₁) (hstart : t₁.state = .start)
    (hpass : Run cfg t₁ (.again :: .rawMempool (R.map some) :: es) t)
    (hone : ∀ txids, .rawMempool txids ∉ es) (hsuccess : .success ∈ t.emitted) :
    PassResult cfg t₁.mempool R (replies es) t.mempool ∧
      ∀ (downloaded : List NewTx) (failed ignored : HashSet),
        ∃ r, pruneFailedParents downloaded failed ignored = some r ∧
          ∀ nt, nt ∈ r.1 ↔
            nt ∈ downloaded ∧ ¬ HasFailedParent failed ignored downloaded nt := by
  refine ⟨?_, fun downloaded failed ignored => ?_⟩
  · obtain ⟨ord, hagain, hpass⟩ := hpass.cons_inv
    obtain ⟨ord', hlist, hpass⟩ := hpass.cons_inv
    have hi : TaskInv (SynchMempoolTask.handle cfg ord t₁ .again) :=
      (taskInv_of_run (taskInv_start hM) hbefore).handle hagain
    have hmp : (SynchMempoolTask.handle cfg ord t₁ .again).mempool = t₁.mempool := by
      simp [SynchMempoolTask.handle, SynchMempoolTask.process, hstart]
    have hnodup : R.Nodup := by simpa using hlist.2
    have hbegun : PassInv cfg t₁.mempool R [] (SynchMempoolTask.handle cfg ord'
        (SynchMempoolTask.handle cfg ord t₁ .again) (.rawMempool (R.map some))) := by
      rw [← hmp]
      exact passInv_onRawMempool hi hlist.1 hnodup
    have hend := hbegun.run (hi.handle hlist) hpass hone
    cases hend with
    | loading h => exact absurd hsuccess h.quiet
    | stopped _ hq => exact absurd hsuccess hq
    | done _ hres => exact hres
  · obtain ⟨r, hr, -, hmem⟩ := pruneFailedParents_spec downloaded failed ignored
    exact ⟨r, hr, hmem⟩

/-- A node that has `oneOutput` confirmed. -/
def opTrueConfig : Config where
  hashers := opTrueHashers
  isMimble := false
  maxDLBacklogSize := 10
  txnIgnoreSet := ∅
  utxoGetFromDB := oneOutput

/-- The child arrives before its parent, and both are added. -/
def parentChildReplies : List Event :=
  [.rawTransaction 2 (.tx childTx), .rawTransaction 1 (.tx parentTx)]

theorem synch_result_parentChild : ∃ t : SynchMempoolTask,
    Run opTrueConfig { mempool := {} }
      (.again :: .rawMempool ([2, 1].map some) :: parentChildReplies) t ∧
      PassResult opTrueConfig {} [2, 1] (replies parentChildReplies) t.mempool ∧
      1 ∈ t.mempool.txs ∧ 2 ∈ t.mempool.txs := by
  have hall : EnabledAll opTrueConfig { mempool := {} }
      (.again :: .rawMempool ([2, 1].map some) :: parentChildReplies) := by decide
  have hrun := run_runFrom hall
  refine ⟨_, hrun, (synch_result (indexed_clear {}) .nil rfl hrun ?_ ?_).1, ?_, ?_⟩
  · simp [parentChildReplies]
  · decide
  · decide
  · decide

end SynchMempoolTask
end SynchMempool
end Shulcrum
