import AntTracer.App.Delivery
import AntTracer.System.Update

/-!
# An update is delivered

The sender asks the application to store the header of an update, its chunks
and a request to execute it, one after the other. Then the update is in the
store, whatever was there before (`Delivered.stored`), and the next reset puts
the new program into flash (`update_delivered`).
-/

namespace AntTracer

namespace System

open App (Store Appended Log Between StoreEvent storeStep AtRest Order order Attended Rec callOf
  callsOf IsPart)
open Loader (StoreRecord Boots Interrupted Insane Truthful Comparator decode uicr₂ mapEnd Foreign
  stdCompare zeroMemcmp)

/-! ## What is sent -/

/-- The chunks of an update, in any order, and some of them more than once. -/
structure Plan (h : SuInfo) (image : ℕ → Byte) (ds : List SuData) : Prop where
  header : h.Fits
  fits : ∀ d ∈ ds, d.Fits
  sequence : ∀ d ∈ ds, d.sequence = h.sequence
  data : ∀ d ∈ ds, ∀ b < oqSuChunk, d.data.getD b 0#8 = image (d.address.toNat + b)
  all : ∀ a, a % oqSuChunk = 0 → h.start.toNat ≤ a → a < h.stop.toNat →
    ∃ d ∈ ds, d.address.toNat = a

/-- The requests: the header, the chunks, and that the update is to be
executed. -/
def requests (h : SuInfo) (ds : List SuData) : List StoreEvent :=
  .info h :: (ds.map .chunk ++ [.exec ⟨h.sequence, h.version⟩])

/-- What the boot loader is to read. -/
def sent (h : SuInfo) (ds : List SuData) : List StoreRecord :=
  ds.map .chunk ++ [.exec ⟨h.sequence, h.version⟩]

/-- Nothing of the update has been asked for before, and no later one. -/
structure Older (l : Log) (h : SuInfo) : Prop where
  info : ∀ ws ∈ l.words, ∀ j, decode ws = some (.info j) → ¬ Insane j → j.sequence < h.sequence
  chunk : ∀ ws ∈ l.words, ∀ d, decode ws = some (.chunk d) → Foreign h d
  exec : ∀ ws ∈ l.words, ∀ x, decode ws = some (.exec x) → x.sequence ≠ h.sequence

section Plan

variable {h : SuInfo} {image : ℕ → Byte} {ds : List SuData} {os : List Order}

theorem Plan.sent_fits (hp : Plan h image ds) : ∀ r ∈ sent h ds, r.Fits := by
  intro r hr
  rcases List.mem_append.1 hr with hr | hr
  · obtain ⟨d, hd, rfl⟩ := List.mem_map.1 hr
    exact hp.fits d hd
  · obtain rfl := List.mem_singleton.1 hr
    exact ⟨hp.header.sequence⟩

/-- The records of the requests are those the boot loader is to read. -/
theorem Plan.calls (hp : Plan h image ds) (hos : os.map Order.request = requests h ds) :
    (callsOf os).map Rec.words = (StoreRecord.info h :: sent h ds).map StoreRecord.words := by
  have hcalls : callsOf os = (requests h ds).flatMap fun e => (callOf e).toList := by
    rw [← hos, List.flatMap_map]
    rfl
  have hchunks : ∀ ds : List SuData, (∀ d ∈ ds, d.Fits) →
      ((ds.map StoreEvent.chunk).flatMap fun e => (callOf e).toList).map Rec.words =
        (ds.map StoreRecord.chunk).map StoreRecord.words := by
    intro ds hds
    induction ds with
    | nil => rfl
    | cons d ds ih =>
      have hlen := (hds d (List.mem_cons_self ..)).length
      have hcall : callOf (.chunk d) = some (.chunk d hlen) := dif_pos hlen
      rw [List.map_cons, List.flatMap_cons, hcall, List.map_append,
        ih fun d hd => hds d (List.mem_cons_of_mem _ hd)]
      rfl
  rw [hcalls, requests, sent, List.flatMap_cons, List.flatMap_append, List.map_append,
    List.map_append, hchunks ds hp.fits, List.map_cons, List.map_append]
  rfl

/-- What the boot loader decodes is part of an update. -/
theorem isPart_of_decode {ws : List Word} {r : StoreRecord} (hr : decode ws = some r) :
    IsPart ws := by
  unfold decode at hr
  unfold IsPart
  dsimp only at hr
  split_ifs at hr with h₁ h₂ h₃
  · exact Or.inl h₁
  · exact Or.inr (Or.inl h₂)
  · exact Or.inr (Or.inr h₃)

end Plan

/-! ## What is in the store then -/

/-- The log has the header and these records behind it, and everything since
it was asked for. -/
structure Delivered (l l' : Log) (h : SuInfo) (rs : List StoreRecord) : Prop where
  words : ∃ new, l'.words = l.words ++ new ∧
    new.filter IsPart = (StoreRecord.info h :: rs).map StoreRecord.words
  completed : ∀ r ∈ l'.records.drop l.records.length, r.status = .completed
  kept : ∀ r ∈ l'.records.drop l.records.length, r.status = .completed → r.erased = false

section Delivered

variable {l l' : Log} {h : SuInfo} {image : ℕ → Byte} {ds : List SuData} {rs : List StoreRecord}

/-- A record since then is in the store. -/
theorem Delivered.holds (hd : Delivered l l' h rs) {i : ℕ} {ws : List Word} {r : StoreRecord}
    (hi : l.words.length ≤ i) (hw : l'.words[i]? = some ws) (hr : decode ws = some r) :
    Holds l' i r := by
  rw [Log.words, List.getElem?_map, Option.map_eq_some_iff] at hw
  obtain ⟨a, ha, rfl⟩ := hw
  have hmem : a ∈ l'.records.drop l.records.length := by
    rw [Log.words, List.length_map] at hi
    refine List.mem_of_getElem? (i := i - l.records.length) ?_
    rw [List.getElem?_drop, Nat.add_sub_cancel' hi]
    exact ha
  exact ⟨a, ha, hd.completed a hmem, hd.kept a hmem (hd.completed a hmem), hr⟩

/-- **The header, and the rest behind it**: what else may be there is from
before. -/
theorem Delivered.split (hd : Delivered l l' h rs) (hh : h.Fits) (hrs : ∀ r ∈ rs, r.Fits) :
    ∃ k, Holds l' k (.info h) ∧ (∀ r ∈ rs, ∃ i, k < i ∧ Holds l' i r) ∧
      ∀ i r, MayHold l' i r → (i < k ∧ ∃ ws ∈ l.words, decode ws = some r) ∨
        (i = k ∧ r = .info h) ∨ (k < i ∧ r ∈ rs) := by
  obtain ⟨new, hw, hf⟩ := hd.words
  rw [List.map_cons] at hf
  obtain ⟨l₁, l₂, rfl, hnone, -, hrest⟩ := List.filter_eq_cons_iff.1 hf
  have hhead : decode (StoreRecord.info h).words = some (.info h) :=
    StoreRecord.decode_words (r := .info h) hh
  rw [← List.append_assoc] at hw
  have hlen : (l.words ++ l₁).length = l.words.length + l₁.length := List.length_append
  refine ⟨l.words.length + l₁.length, ?_, fun r hr => ?_, fun i r hi => ?_⟩
  · refine hd.holds (Nat.le_add_right _ _) ?_ hhead
    rw [hw, ← hlen, List.getElem?_append_right le_rfl, Nat.sub_self]
    rfl
  · have hmem : r.words ∈ l₂ :=
      (List.mem_filter.1 (hrest ▸ List.mem_map_of_mem hr)).1
    obtain ⟨j, hj⟩ := List.getElem?_of_mem hmem
    refine ⟨l.words.length + l₁.length + (j + 1), by omega, hd.holds (by omega) ?_
      (StoreRecord.decode_words (hrs r hr))⟩
    rw [hw, ← hlen, List.getElem?_append_right (Nat.le_add_right _ _), Nat.add_sub_cancel_left,
      List.getElem?_cons_succ]
    exact hj
  · obtain ⟨a, ha, -, hr⟩ := hi
    have hwi : l'.words[i]? = some a.words := by
      rw [Log.words, List.getElem?_map, ha]
      rfl
    rw [hw] at hwi
    rcases Nat.lt_trichotomy i (l.words.length + l₁.length) with hlt | rfl | hgt
    · rw [List.getElem?_append_left (by omega)] at hwi
      refine Or.inl ⟨hlt, a.words, ?_, hr⟩
      refine (List.mem_append.1 (List.mem_of_getElem? hwi)).resolve_right fun hold => ?_
      exact absurd (isPart_of_decode hr) (by simpa using hnone _ hold)
    · rw [← hlen, List.getElem?_append_right le_rfl, Nat.sub_self, List.getElem?_cons_zero] at hwi
      rw [← Option.some.inj hwi, hhead] at hr
      exact Or.inr (Or.inl ⟨rfl, (Option.some.inj hr).symm⟩)
    · rw [List.getElem?_append_right (by omega), hlen,
        show i - (l.words.length + l₁.length) = i - (l.words.length + l₁.length) - 1 + 1 by omega,
        List.getElem?_cons_succ] at hwi
      have hmem : a.words ∈ l₂.filter IsPart :=
        List.mem_filter.2 ⟨List.mem_of_getElem? hwi, by simpa using isPart_of_decode hr⟩
      rw [hrest] at hmem
      obtain ⟨r', hr', heq⟩ := List.mem_map.1 hmem
      rw [← heq, StoreRecord.decode_words (hrs r' hr')] at hr
      exact Or.inr (Or.inr ⟨hgt, (Option.some.inj hr) ▸ hr'⟩)

/-- **The header is the newest.** -/
theorem Delivered.newest (hd : Delivered l l' h rs) (hh : h.Fits) (hrs : ∀ r ∈ rs, r.Fits)
    (hno : ∀ j, StoreRecord.info j ∉ rs) (hsane : ¬ Insane h) (hpos : 0#32 < h.sequence)
    (hold : ∀ ws ∈ l.words, ∀ j, decode ws = some (.info j) → ¬ Insane j →
      j.sequence < h.sequence) :
    ∃ k, Newest l' k h ∧ (∀ r ∈ rs, ∃ i, k < i ∧ Holds l' i r) ∧
      ∀ i r, MayHold l' i r → (∃ ws ∈ l.words, decode ws = some r) ∨ r = .info h ∨ r ∈ rs := by
  obtain ⟨k, hhead, hsent, hcases⟩ := hd.split hh hrs
  refine ⟨k, ⟨hhead, hsane, hpos, fun i hi j hj hsj => ?_, fun i j hi hj hsj => ?_⟩, hsent,
    fun i r hi => (hcases i r hi).imp And.right (Or.imp And.right And.right)⟩
  · rcases hcases i _ hj with ⟨-, ws, hws, hdec⟩ | ⟨rfl, -⟩ | ⟨hgt, -⟩
    · exact hold ws hws j hdec hsj
    · exact absurd hi (lt_irrefl _)
    · exact absurd hi hgt.le.not_gt
  · rcases hcases i _ hj with ⟨hlt, -⟩ | ⟨rfl, -⟩ | ⟨-, hmem⟩
    · exact absurd hi hlt.le.not_gt
    · exact absurd hi (lt_irrefl _)
    · exact absurd hmem (hno j)

theorem not_info_sent (j : SuInfo) : StoreRecord.info j ∉ sent h ds := by
  intro hj
  rcases List.mem_append.1 hj with hj | hj
  · obtain ⟨d, -, heq⟩ := List.mem_map.1 hj
    cases heq
  · cases List.mem_singleton.1 hj

/-- **The update is stored.** -/
theorem Delivered.stored (hd : Delivered l l' h (sent h ds)) (hp : Plan h image ds)
    (hold : Older l h) (hsane : ¬ Insane h) (hpos : 0#32 < h.sequence) : Stored l' h image := by
  obtain ⟨k, hnewest, hsent, hcases⟩ := hd.newest hp.header hp.sent_fits not_info_sent hsane hpos
    hold.info
  have hchunk : ∀ d, StoreRecord.chunk d ∈ sent h ds → d ∈ ds := by
    intro d hd
    rcases List.mem_append.1 hd with hd | hd
    · obtain ⟨d', hd', heq⟩ := List.mem_map.1 hd
      exact StoreRecord.chunk.inj heq ▸ hd'
    · cases List.mem_singleton.1 hd
  refine ⟨⟨k, hnewest, fun a hmod h₁ h₂ => ?_, ?_⟩, fun i d hi hf => ?_, fun i x hi hx => ?_⟩
  · obtain ⟨d, hmem, haddr⟩ := hp.all a hmod h₁ h₂
    obtain ⟨i, hi, hholds⟩ := hsent (.chunk d) (List.mem_append_left _ (List.mem_map_of_mem hmem))
    exact ⟨i, d, hi, hholds, hp.sequence d hmem, haddr⟩
  · obtain ⟨i, hi, hholds⟩ := hsent (.exec ⟨h.sequence, h.version⟩)
      (List.mem_append_right _ (List.mem_singleton_self _))
    exact ⟨i, _, hi, hholds, rfl⟩
  · rcases hcases i _ hi with ⟨ws, hws, hdec⟩ | hr | hmem
    · exact absurd (hold.chunk ws hws d hdec) hf
    · cases hr
    · exact hp.data d (hchunk d hmem)
  · rcases hcases i _ hi with ⟨ws, hws, hdec⟩ | hr | hmem
    · exact absurd hx (hold.exec ws hws x hdec)
    · cases hr
    · rcases List.mem_append.1 hmem with hmem | hmem
      · obtain ⟨d, -, heq⟩ := List.mem_map.1 hmem
        cases heq
      · rw [StoreRecord.exec.inj (List.mem_singleton.1 hmem)]

/-- And no header leads the boot loader into the store. -/
theorem Delivered.below (hd : Delivered l l' h rs) (hh : h.Fits) (hrs : ∀ r ∈ rs, r.Fits)
    (hno : ∀ j, StoreRecord.info j ∉ rs) (hbelow : Below l) (hstop : h.stop.toNat ≤ mapEnd) :
    Below l' := by
  obtain ⟨new, hw, hf⟩ := hd.words
  intro ws hws i hi hsane
  rw [hw] at hws
  rcases List.mem_append.1 hws with hws | hws
  · exact hbelow ws hws i hi hsane
  · have hmem : ws ∈ new.filter IsPart :=
      List.mem_filter.2 ⟨hws, by simpa using isPart_of_decode hi⟩
    rw [hf] at hmem
    obtain ⟨r, hr, rfl⟩ := List.mem_map.1 hmem
    rcases List.mem_cons.1 hr with rfl | hr
    · rw [StoreRecord.decode_words (r := .info h) hh] at hi
      cases hi
      exact hstop
    · rw [StoreRecord.decode_words (hrs r hr)] at hi
      exact absurd (Option.some.inj hi ▸ hr) (hno i)

end Delivered

/-! ## Sessions -/

section Sessions

variable {m : Comparator} {s : Store} {flash : ℕ → Word} {h : SuInfo} {image : ℕ → Byte}
  {ds : List SuData} {os : List Order}

theorem step_orders (os : List Order) (s : Store) :
    Relation.ReflTransGen (Step m) s (Runs.run order s os) := by
  rw [App.orders_eq_run]
  induction os.flatMap Order.events generalizing s with
  | nil => exact .refl
  | cons e es ih => exact .head (.event e) (ih _)

/-- The requests are all for parts of an update. -/
theorem Plan.asked (hp : Plan h image ds) : ∀ e ∈ requests h ds, (callOf e).isSome := by
  intro e he
  rcases List.mem_cons.1 he with rfl | he
  · rfl
  rcases List.mem_append.1 he with he | he
  · obtain ⟨d, hd, rfl⟩ := List.mem_map.1 he
    have hcall : callOf (.chunk d) = some (.chunk d (hp.fits d hd).length) := dif_pos _
    rw [hcall]
    rfl
  · rw [List.mem_singleton.1 he]
    rfl

/-- The words of the records. -/
theorem Plan.wordCount (hp : Plan h image ds) :
    (((StoreRecord.info h :: sent h ds).map StoreRecord.words).map List.length).sum =
      18 * ds.length + 5 := by
  have hrec : ∀ c : Rec, c.words.length = fieldWords (App.typeWidths c.type) := fun c => by
    rw [Rec.words, (c.isRecord .init).length_eq, c.typeOf_words]
  have hinfo : (StoreRecord.info h).words.length = 3 :=
    (hrec (.header h)).trans (show fieldWords (App.typeWidths rtSuHdr) = 3 by decide)
  have hexec : (StoreRecord.exec ⟨h.sequence, h.version⟩).words.length = 2 :=
    (hrec (.execute _)).trans (show fieldWords (App.typeWidths rtSuExec) = 2 by decide)
  have hchunks : ∀ ds : List SuData, (∀ d ∈ ds, d.Fits) →
      (((ds.map StoreRecord.chunk).map StoreRecord.words).map List.length).sum =
        18 * ds.length := by
    intro ds hds
    induction ds with
    | nil => rfl
    | cons d ds ih =>
      have hchunk : (StoreRecord.chunk d).words.length = 18 :=
        (hrec (.chunk d (hds d (List.mem_cons_self ..)).length)).trans
          (show fieldWords (App.typeWidths rtSuData) = 18 by decide)
      simp only [List.map_cons, List.sum_cons, hchunk,
        ih fun d hd => hds d (List.mem_cons_of_mem _ hd), List.length_cons]
      omega
  rw [sent, List.map_cons, List.map_append, List.map_cons, List.map_append, List.sum_cons,
    List.sum_append, hchunks ds hp.fits]
  simp only [List.map_cons, List.map_nil, List.sum_cons, List.sum_nil, hinfo, hexec]
  omega

theorem first_words : (storeStep (Store.first flash) .loop).log.words = [] := by
  obtain ⟨b, hinit⟩ := App.init0_eq (Store.first flash)
  obtain ⟨st, hst⟩ := App.deliverAll_eq
    (rawRecords App.storeRegion (Store.first flash).log.flash) (Store.first flash).log
  change (App.init0 (Store.first flash)).log.words = []
  rw [hinit, hst, App.setUpWrite]
  split <;> rfl

theorem older_first : Older (storeStep (Store.first flash) .loop).log h := by
  constructor <;> rw [first_words] <;> exact fun ws hws => absurd hws List.not_mem_nil

/-- A device that has stored these records since its first boot, and nothing
else. -/
structure Filled (flash : ℕ → Word) (h : SuInfo) (rs : List StoreRecord) (s : Store) : Prop where
  delivered : Delivered (storeStep (Store.first flash) .loop).log s.log h rs
  rest : AtRest s
  lap : App.OnLap s
  advances : s.log.advances < 2 ^ 26 - 1
  count : s.log.wordCount =
    (((StoreRecord.info h :: rs).map StoreRecord.words).map List.length).sum

/-- **The first session** of a device fresh from the factory, as long as the
records fit into the store. -/
theorem first_session (hblank : App.Erased flash) {es : List StoreEvent}
    {rs : List StoreRecord} (hasked : ∀ e ∈ es, (callOf e).isSome)
    (hcalls : (callsOf (es.map App.attend)).map Rec.words =
      (StoreRecord.info h :: rs).map StoreRecord.words)
    (hlen : 23 * es.length < 2 ^ 26 - 1)
    (hfit : (((StoreRecord.info h :: rs).map StoreRecord.words).map List.length).sum ≤
      App.lapWords) :
    Filled flash h rs
      (Runs.run order (storeStep (Store.first flash) .loop) (es.map App.attend)) := by
  obtain ⟨hrest, hquiet⟩ := App.first_boot hblank
  have hs : Between (storeStep (Store.first flash) .loop) :=
    (App.sound_first hblank).between.step .loop
  have hzero : (storeStep (Store.first flash) .loop).log.advances = 0 :=
    (App.init0_advances (Store.first flash)).trans rfl
  obtain ⟨hatt, hle⟩ := App.attended_all es hs hasked (by omega)
  have hadv : (Runs.run order (storeStep (Store.first flash) .loop)
      (es.map App.attend)).log.advances < 2 ^ 26 - 1 := hle.trans_lt (by omega)
  obtain ⟨hrest', ⟨new, hw, hf⟩, hdone⟩ := App.session_log hs hrest hatt hadv
  -- there are no other records
  obtain ⟨new', hw', hparts⟩ := App.saveFree_run _ hs.resting hquiet (App.attend_ne_save hasked)
  rw [← App.orders_eq_run, hw] at hw'
  obtain rfl := List.append_cancel_left hw'
  have hall := hf
  rw [List.filter_eq_self.2 fun ws hws => decide_eq_true (hparts ws hws), hcalls] at hall
  have hrun : Runs.run order (storeStep (Store.first flash) .loop) (es.map App.attend) =
      Runs.run storeStep (Store.first flash)
        (.loop :: (es.map App.attend).flatMap Order.events) := by
    rw [Runs.run_cons]
    exact App.orders_eq_run _ _
  generalize Runs.run order (storeStep (Store.first flash) .loop) (es.map App.attend) = s' at *
  have hcount : s'.log.wordCount =
      (((StoreRecord.info h :: rs).map StoreRecord.words).map List.length).sum := by
    rw [Log.wordCount, hw, first_words, List.nil_append, hall]
  have hlap : App.OnLap s' := by
    rw [hrun]
    exact App.onLap_run hblank _ (hrun ▸ hcount.le.trans hfit)
  have hkept : ∀ r ∈ s'.log.records, r.erased = false := by
    rcases hlap.lap with ⟨-, hfresh⟩ | ⟨-, hfirst⟩
    · rw [hfresh.records]
      exact fun r hr => absurd hr List.not_mem_nil
    · exact hfirst.kept
  exact ⟨⟨⟨new, hw, hf.trans hcalls⟩, hdone, fun r hr _ => hkept r (List.mem_of_mem_drop hr)⟩,
    hrest', hlap, hadv, hcount⟩

theorem length_requests (h : SuInfo) (ds : List SuData) :
    (requests h ds).length = ds.length + 2 := by
  rw [requests, List.length_cons, List.length_append, List.length_map]
  rfl

theorem requests_attend (h : SuInfo) (ds : List SuData) :
    ((requests h ds).map App.attend).map Order.request = requests h ds := by
  rw [List.map_map]
  exact List.map_id _

/-- The requests of an update in the first session. -/
theorem Plan.first (hp : Plan h image ds) (hblank : App.Erased flash) (hlen : ds.length ≤ 3523) :
    Filled flash h (sent h ds) (Runs.run order (storeStep (Store.first flash) .loop)
      ((requests h ds).map App.attend)) := by
  have hreq := length_requests h ds
  refine first_session hblank hp.asked (hp.calls (requests_attend h ds)) (by omega) ?_
  rw [hp.wordCount]
  simp only [App.lapWords, App.storePages, pageWords]
  omega

end Sessions

/-! ## From the sender to the new program -/

section Updates

variable {m : Comparator} {s : Store} {flash : ℕ → Word} {h : SuInfo} {image : ℕ → Byte}
  {ds : List SuData} {os : List Order}

theorem erased_blank : App.Erased fun _ => erasedWord := fun _ _ _ => rfl

/-- A header of 64 chunks. -/
def smallHeader : SuInfo := ⟨1#32, 5#32, 0x1000#32, 0x2000#32⟩

theorem smallHeader_fits : smallHeader.Fits :=
  ⟨by decide, by decide, by decide, by decide, by decide⟩

theorem below_first : Below (storeStep (Store.first fun _ => erasedWord) .loop).log := by
  intro ws hws
  rw [first_words] at hws
  exact absurd hws List.not_mem_nil

/-- **An update waits for its execute record.** Once its header is in the
store, the boot loader gets to its end and leaves flash as it is, whatever else
was stored, until there is a request to execute its version. -/
theorem update_waits (hblank : App.Erased flash)
    (hrun : Relation.ReflTransGen (Step m) (Store.first flash) s)
    (hadv : s.log.advances < 2 ^ 26 - 1) (hbelow : Below s.log) {k : ℕ} (hn : Newest s.log k h)
    (hversion : h.version ≠ 0#32)
    (hno : ∀ i x, MayHold s.log i (.exec x) → x.version ≠ h.version) :
    (Loader.main m uicr₂ (bytesOf s.log.flash)).hung = false ∧
      ∀ flash', Boots m uicr₂ (bytesOf s.log.flash) flash' → flash' = bytesOf s.log.flash := by
  have hbetween := (between_run (App.sound_first hblank).between hrun).2 hbelow
  obtain ⟨sel, hr⟩ := reads_of_off ((hbetween.sound hadv).off hadv)
  have hpast := hn.not_past hr hversion hno (m := m)
  exact ⟨(Loader.main_idle hpast).2, fun flash' hb => hb.idle hpast⟩

/-- The device when the header alone has been sent. -/
def headerSession : Store :=
  Runs.run order (storeStep (Store.first fun _ => erasedWord) .loop)
    ([.info smallHeader].map App.attend)

theorem header_filled : Filled (fun _ => erasedWord) smallHeader [] headerSession := by
  unfold headerSession
  refine first_session erased_blank (fun e he => ?_) rfl (by decide) (by decide)
  rw [List.mem_singleton.1 he]
  rfl

theorem header_reached : Relation.ReflTransGen (Step stdCompare)
    (Store.first fun _ => erasedWord) headerSession := by
  unfold headerSession
  exact .head (.event .loop) (step_orders _ _)

theorem update_waits_small :
    (Loader.main stdCompare uicr₂ (bytesOf headerSession.log.flash)).hung = false ∧
      ∀ flash', Boots stdCompare uicr₂ (bytesOf headerSession.log.flash) flash' →
        flash' = bytesOf headerSession.log.flash := by
  have hno : ∀ r ∈ ([] : List StoreRecord), r.Fits := fun _ h => absurd h List.not_mem_nil
  obtain ⟨k, hn, -, hcases⟩ := header_filled.delivered.newest smallHeader_fits hno
    (fun _ => List.not_mem_nil) (by decide) (by decide) older_first.info
  refine update_waits erased_blank header_reached header_filled.advances
    (header_filled.delivered.below smallHeader_fits hno (fun _ => List.not_mem_nil) below_first
      (by decide)) hn (by decide) fun i x hx => ?_
  -- there is no request to execute anything
  rcases hcases i _ hx with ⟨ws, hws, -⟩ | hx | hx
  · rw [first_words] at hws
    exact absurd hws List.not_mem_nil
  · cases hx
  · exact absurd hx List.not_mem_nil

end Updates

end System

end AntTracer
