import Radiata.Lib.Checked
import Radiata.Lib.Contest
import Radiata.Resource.Store

/-!
# Convergence of the resource registers

What a register holds after a sequence of records does not depend on how the sequence
was ordered or split into puts and pages.  `Settles` says what a list of records does to
a row, and lists compose: a put settles its row with one record, a page settles every row
with the page's records for it, and so a whole feed settles every row with all that it
brought.
-/

namespace Radiata.Resource

open Lib Protocol Identity Reconcile Storage
open OrderDual (toDual toDual_lt_toDual)

variable {sha256 : Hash}

/-! ## What a list of records does to a row -/

/-- The row after a list of records for it: kept when its record is not beaten, and
otherwise the encoding of the greatest. -/
inductive Settles (row : Option (List UInt8)) (records : List (ResourceRecordV1 sha256)) :
    Option (List UInt8) → Prop
  | kept (unbeaten : ∀ r ∈ records, ∃ e, readRow sha256 row = some e ∧ r.rank ≤ e.rank) :
      Settles row records row
  | installed {best : ResourceRecordV1 sha256} {bytes : List UInt8} (mem : best ∈ records)
      (encoded : best.encode = .ok bytes) (greatest : ∀ r ∈ records, r.rank ≤ best.rank)
      (beats : ∀ e, readRow sha256 row = some e → e.rank < best.rank) :
      Settles row records (some bytes)

variable {record : ResourceRecordV1 sha256}

lemma readRow_some_of_encode {bytes : List UInt8} (h : record.encode = .ok bytes) :
    readRow sha256 (some bytes) = some record := by
  rw [readRow, Option.bind_some, ResourceRecordV1.decode_encode h]
  rfl

variable {row last : Option (List UInt8)}

lemma Settles.append {mid : Option (List UInt8)} {records later : List (ResourceRecordV1 sha256)}
    (h : Settles row records mid) (h' : Settles mid later last) :
    Settles row (records ++ later) last := by
  cases h with
  | kept unbeaten =>
    cases h' with
    | kept unbeaten' =>
      refine .kept fun r hr => ?_
      exact (List.mem_append.mp hr).elim (unbeaten r) (unbeaten' r)
    | installed mem encoded greatest beats =>
      refine .installed (List.mem_append_right _ mem) encoded (fun r hr => ?_) beats
      rcases List.mem_append.mp hr with hr | hr
      · obtain ⟨e, he, hle⟩ := unbeaten r hr
        exact hle.trans (beats e he).le
      · exact greatest r hr
  | @installed best bytes mem encoded greatest beats =>
    have hbest := readRow_some_of_encode encoded
    cases h' with
    | kept unbeaten' =>
      refine .installed (List.mem_append_left _ mem) encoded (fun r hr => ?_) beats
      rcases List.mem_append.mp hr with hr | hr
      · exact greatest r hr
      · obtain ⟨e, he, hle⟩ := unbeaten' r hr
        obtain rfl := Option.some.inj (hbest.symm.trans he)
        exact hle
    | installed mem' encoded' greatest' beats' =>
      have hlt := beats' best hbest
      refine .installed (List.mem_append_right _ mem') encoded' (fun r hr => ?_)
        fun e he => (beats e he).trans hlt
      rcases List.mem_append.mp hr with hr | hr
      · exact (greatest r hr).trans hlt.le
      · exact greatest' r hr

lemma Settles.unique {last' : Option (List UInt8)}
    {records records' : List (ResourceRecordV1 sha256)} (h : Settles row records last)
    (h' : Settles row records' last') (hmem : ∀ r, r ∈ records ↔ r ∈ records')
    (hinj : ∀ a ∈ records, ∀ b ∈ records, a.rank = b.rank → a = b) : last = last' := by
  cases h with
  | kept unbeaten =>
    cases h' with
    | kept => rfl
    | installed mem _ _ beats =>
      obtain ⟨e, he, hle⟩ := unbeaten _ ((hmem _).mpr mem)
      exact absurd (beats e he) hle.not_gt
  | installed mem encoded greatest beats =>
    cases h' with
    | kept unbeaten' =>
      obtain ⟨e, he, hle⟩ := unbeaten' _ ((hmem _).mp mem)
      exact absurd (beats e he) hle.not_gt
    | installed mem' encoded' greatest' _ =>
      have hbest := hinj _ mem _ ((hmem _).mpr mem')
        (le_antisymm (greatest' _ ((hmem _).mp mem)) (greatest _ ((hmem _).mpr mem')))
      subst hbest
      exact congrArg _ (Except.ok.inj (encoded.symm.trans encoded'))

def Greatest (records : List (ResourceRecordV1 sha256)) (best : ResourceRecordV1 sha256) : Prop :=
  best ∈ records ∧ ∀ r ∈ records, r.rank ≤ best.rank

lemma Settles.greatest {records : List (ResourceRecordV1 sha256)} (h : Settles row records last)
    {best : ResourceRecordV1 sha256} (hbest : readRow sha256 last = some best) :
    Greatest ((readRow sha256 row).toList ++ records) best := by
  cases h with
  | kept unbeaten =>
    refine ⟨List.mem_append_left _ (Option.mem_toList.mpr hbest), fun x hx => ?_⟩
    rcases List.mem_append.mp hx with hx | hx
    · rw [Option.some.inj (hbest.symm.trans (Option.mem_toList.mp hx))]
    · obtain ⟨e, he, hle⟩ := unbeaten x hx
      rwa [Option.some.inj (hbest.symm.trans he)]
  | installed mem encoded greatest beats =>
    obtain rfl := Option.some.inj ((readRow_some_of_encode encoded).symm.trans hbest)
    refine ⟨List.mem_append_right _ mem, fun x hx => ?_⟩
    rcases List.mem_append.mp hx with hx | hx
    · exact (beats x (Option.mem_toList.mp hx)).le
    · exact greatest x hx

variable {r : ResourceRecordV1 sha256}

lemma Settles.readable {records : List (ResourceRecordV1 sha256)} (h : Settles row records last)
    (hr : r ∈ (readRow sha256 row).toList ++ records) :
    ∃ best, readRow sha256 last = some best := by
  cases h with
  | kept unbeaten =>
    rcases List.mem_append.mp hr with hr | hr
    · exact ⟨r, Option.mem_toList.mp hr⟩
    · exact (unbeaten r hr).imp fun e he => he.1
  | installed _ encoded => exact ⟨_, readRow_some_of_encode encoded⟩

/-! ## Feeds -/

inductive Feed (sha256 : Hash) where
  | put (record : ResourceRecordV1 sha256) (ended : CommitEnd)
  | page (records : List (ResourceRecordV1 sha256)) (ended retried : CommitEnd)

namespace Feed

def records : Feed sha256 → List (ResourceRecordV1 sha256)
  | put record _ => [record]
  | page records _ _ => records

def land (registers : Registers) : Feed sha256 → Option Registers
  | put record ended =>
    let commit := commitExpectedRecord registers record none ended
    match commit.answer with
    | .ok .installed | .ok (.superseded _) => some commit.store
    | _ => none
  | page records ended retried =>
    let commit := commitPageBatch registers records ended retried
    match commit.answer with
    | .ok _ => some commit.store
    | .error _ => none

end Feed

def feedAll (registers : Registers) (feeds : List (Feed sha256)) : Option Registers :=
  feeds.foldlM Feed.land registers

def keyed (key : List UInt8) (records : List (ResourceRecordV1 sha256)) :
    List (ResourceRecordV1 sha256) := records.filter fun r => recordKey r.name = key

variable {key : List UInt8}

lemma mem_keyed {records : List (ResourceRecordV1 sha256)} :
    r ∈ keyed key records ↔ r ∈ records ∧ recordKey r.name = key := by
  rw [keyed, List.mem_filter, decide_eq_true_eq]

lemma keyed_self (record : ResourceRecordV1 sha256) :
    keyed (recordKey record.name) [record] = [record] := by simp [keyed]

lemma Settles.of_keyed_nil {records : List (ResourceRecordV1 sha256)}
    (h : ∀ r ∈ records, recordKey r.name ≠ key) : Settles row (keyed key records) row :=
  .kept fun r hr => absurd (mem_keyed.mp hr).2 (h r (mem_keyed.mp hr).1)

lemma land_put_settles {registers next : Registers} {ended : CommitEnd}
    (h : (Feed.put record ended).land registers = some next) (key : List UInt8) :
    Settles (registers.get? key) (keyed key [record]) (next.get? key) := by
  unfold Feed.land at h
  dsimp only at h
  rcases commitExpectedRecord_cases registers record none ended with
    ⟨existing, hstored, hcommit, hle⟩ | ⟨hsome, -⟩ | ⟨hadmitted, hcommit⟩
  · rw [hcommit] at h
    obtain rfl := Option.some.inj h
    refine .kept fun r hr => ?_
    obtain ⟨hmem, rfl⟩ := mem_keyed.mp hr
    obtain rfl := List.mem_singleton.mp hmem
    exact ⟨existing, hstored, hle rfl⟩
  · exact absurd rfl hsome
  · rw [hcommit, noteInstalled_answer, noteInstalled_registers] at h
    rcases commitPut_cases registers record "resource record" ended with
      ⟨bytes, hencode, hput | ⟨applied, hput⟩⟩ | ⟨e, hput⟩
    · rw [hput] at h
      obtain rfl := Option.some.inj h
      by_cases hkey : key = recordKey record.name
      · subst hkey
        rw [get?_install_self, keyed_self]
        refine .installed List.mem_cons_self hencode (fun r hr => ?_) hadmitted.beats
        rw [List.mem_singleton.mp hr]
      · rw [get?_install_of_ne hkey]
        refine .of_keyed_nil fun r hr => ?_
        rw [List.mem_singleton.mp hr]
        exact Ne.symm hkey
    · rw [hput] at h
      cases h
    · rw [hput] at h
      cases h

/-! ### Pages -/

structure Contested (records page : List (ResourceRecordV1 sha256)) : Prop where
  distinct : (page.map fun r => recordKey r.name).Nodup
  greatest : ∀ r ∈ page, r ∈ records ∧ ∀ x ∈ records, recordKey x.name = recordKey r.name →
    x.rank ≤ r.rank
  covers : ∀ x ∈ records, ∃ r ∈ page, recordKey r.name = recordKey x.name

variable {a b : ResourceRecordV1 sha256}

lemma Contested.eq_of_key {records page : List (ResourceRecordV1 sha256)}
    (h : Contested records page) (ha : a ∈ page) (hb : b ∈ page)
    (hkey : recordKey a.name = recordKey b.name) : a = b :=
  List.inj_on_of_nodup_map h.distinct ha hb hkey

variable (records : List (ResourceRecordV1 sha256))

/-- A page is the winners of a contest in which the greater record ranks first. -/
theorem contest_eq_winners : contest records = (Lib.contest (fun r => recordKey r.name)
      (fun r => toDual r.rank) records).1 := by
  induction records using List.reverseRecOn with
  | nil => rfl
  | append_singleton records record ih =>
    rw [contest, Lib.contest, List.foldl_append, List.foldl_append, ← contest, ← Lib.contest, ih]
    generalize Lib.contest (fun r => recordKey r.name) (fun r => toDual r.rank) records =
      standings
    rw [List.foldl_cons, List.foldl_nil, List.foldl_cons, List.foldl_nil, Resource.contend,
      Lib.contend]
    cases standings.1.find? fun r => recordKey r.name = recordKey record.name with
    | none => rfl
    | some standing =>
      by_cases hwins : record.winsOver standing = true
      · simp only [if_pos hwins, toDual_lt_toDual, ResourceRecordV1.winsOver_iff.mp hwins,
          if_true]
      · simp only [if_neg hwins, toDual_lt_toDual,
          mt ResourceRecordV1.winsOver_iff.mpr hwins, if_false]

lemma contest_contested : Contested records (contest records) := by
  have h : Lib.Contested (fun r : ResourceRecordV1 sha256 => recordKey r.name)
    (fun r => toDual r.rank) records (Lib.contest _ _ records) :=
      Lib.contest_contested records
  rw [contest_eq_winners]
  refine ⟨h.distinct, fun r hr => ?_, fun x hx => ?_⟩
  · obtain ⟨hmem, hleast⟩ := settle_spec ((h.mem_winners r).mp hr)
    exact ⟨(mem_keyedBy.mp hmem).1, fun x hx hkey => hleast x (mem_keyedBy.mpr ⟨hx, hkey⟩)⟩
  · -- the key of a record has candidates, so it has a winner
    cases hsettle : settle (fun r => toDual r.rank)
        (keyedBy (fun r => recordKey r.name) (recordKey x.name) records) with
    | none =>
      exact absurd (mem_keyedBy.mpr ⟨hx, rfl⟩)
        (settle_eq_none.mp hsettle ▸ List.not_mem_nil)
    | some r =>
      have hkey := (mem_keyedBy.mp (settle_spec hsettle).1).2
      exact ⟨r, (h.mem_winners r).mpr (hkey ▸ hsettle), hkey⟩

variable {registers : Registers} {puts : List (ResourceRecordV1 sha256 × List UInt8)}

lemma get?_landPuts_of_forall_ne (h : ∀ put ∈ puts, key ≠ recordKey put.1.name) :
    (landPuts registers puts).get? key = registers.get? key := by
  induction puts generalizing registers with
  | nil => rfl
  | cons put puts ih =>
    rw [landPuts, List.foldl_cons]
    refine (ih fun p hp => h p (List.mem_cons_of_mem _ hp)).trans ?_
    exact get?_install_of_ne (h put List.mem_cons_self)

lemma get?_landPuts_of_mem (hdistinct : (puts.map fun put => recordKey put.1.name).Nodup)
    {put : ResourceRecordV1 sha256 × List UInt8} (h : put ∈ puts) :
    (landPuts registers puts).get? (recordKey put.1.name) = some put.2 := by
  induction puts generalizing registers with
  | nil => cases h
  | cons head puts ih =>
    obtain ⟨hhead, htail⟩ := List.nodup_cons.mp hdistinct
    rw [landPuts, List.foldl_cons]
    rcases List.mem_cons.mp h with rfl | h
    · refine (get?_landPuts_of_forall_ne fun p hp hsame => hhead ?_).trans
        (get?_install_self registers put.1 put.2)
      exact List.mem_map.mpr ⟨p, hp, hsame.symm⟩
    · exact ih htail h

lemma landPuts_settles {records : List (ResourceRecordV1 sha256)}
    (h : pagePuts registers (contest records) = .ok puts) (key : List UInt8) :
    Settles (registers.get? key) (keyed key records) ((landPuts registers puts).get? key) := by
  have hcontest := contest_contested records
  obtain ⟨hmap, hencoded⟩ := pagePuts_eq_ok h
  have hmem (r : ResourceRecordV1 sha256) : r ∈ puts.map Prod.fst ↔
      r ∈ contest records ∧ superseded registers r = false := by
    rw [hmap, List.mem_filter, Bool.not_eq_true']
  have hdistinct : (puts.map fun put => recordKey put.1.name).Nodup := by
    have hkeys : (puts.map Prod.fst).map (fun r => recordKey r.name) |>.Nodup := by
      rw [hmap]
      exact (List.filter_sublist.map _).nodup hcontest.distinct
    rwa [List.map_map] at hkeys
  by_cases hkey : ∃ r ∈ contest records, recordKey r.name = key
  · obtain ⟨r, hr, rfl⟩ := hkey
    have hbelow : ∀ x ∈ keyed (recordKey r.name) records, x.rank ≤ r.rank := fun x hx =>
      (hcontest.greatest r hr).2 x (mem_keyed.mp hx).1 (mem_keyed.mp hx).2
    cases hsuperseded : superseded registers r with
    | true =>
      obtain ⟨existing, hstored, hloses⟩ := superseded_iff.mp hsuperseded
      have hrow : (landPuts registers puts).get? (recordKey r.name) =
          registers.get? (recordKey r.name) := by
        refine get?_landPuts_of_forall_ne fun put hput hsame => ?_
        obtain ⟨hpage, hwins⟩ := (hmem put.1).mp (List.mem_map_of_mem hput)
        rw [← hcontest.eq_of_key hr hpage hsame, hsuperseded] at hwins
        cases hwins
      rw [hrow]
      exact .kept fun x hx => ⟨existing, hstored, (hbelow x hx).trans hloses⟩
    | false =>
      obtain ⟨put, hput, rfl⟩ := List.mem_map.mp ((hmem r).mpr ⟨hr, hsuperseded⟩)
      rw [get?_landPuts_of_mem hdistinct hput]
      refine .installed (mem_keyed.mpr ⟨(hcontest.greatest _ hr).1, rfl⟩) (hencoded put hput)
        hbelow fun e he => ?_
      refine not_le.mp fun hle => ?_
      rw [superseded_iff.mpr ⟨e, he, hle⟩] at hsuperseded
      cases hsuperseded
  · have hnone : ∀ put ∈ puts, key ≠ recordKey put.1.name := fun put hput hsame =>
      hkey ⟨put.1, ((hmem put.1).mp (List.mem_map_of_mem hput)).1, hsame.symm⟩
    rw [get?_landPuts_of_forall_ne hnone]
    refine .of_keyed_nil fun x hx hsame => hkey ?_
    exact (hcontest.covers x hx).imp fun r hr => ⟨hr.1, hr.2.trans hsame⟩

variable {next : Registers} {ended : CommitEnd}

lemma land_page_settles {records : List (ResourceRecordV1 sha256)} {retried : CommitEnd}
    (h : (Feed.page records ended retried).land registers = some next) (key : List UInt8) :
    Settles (registers.get? key) (keyed key records) (next.get? key) := by
  unfold Feed.land at h
  dsimp only at h
  rcases commitPageBatch_cases registers records ended retried with
    ⟨puts, hputs, ⟨-, hcommit⟩ | ⟨rfl, hcommit⟩ | ⟨applied, hcommit⟩⟩ | ⟨e, hcommit⟩
  · rw [hcommit] at h
    obtain rfl := Option.some.inj h
    exact landPuts_settles hputs key
  · rw [hcommit] at h
    obtain rfl := Option.some.inj h
    exact landPuts_settles hputs key
  · rw [hcommit] at h
    cases h
  · rw [hcommit] at h
    cases h

lemma land_settles {feed : Feed sha256} (h : feed.land registers = some next) (key : List UInt8) :
    Settles (registers.get? key) (keyed key feed.records) (next.get? key) := by
  cases feed with
  | put record ended => exact land_put_settles h key
  | page records ended retried => exact land_page_settles h key

def fed (feeds : List (Feed sha256)) : List (ResourceRecordV1 sha256) := feeds.flatMap Feed.records

variable {final : Registers} {feeds : List (Feed sha256)}

/-- **Every row after a sequence of commits is settled by the records they brought.** -/
theorem feedAll_settles (h : feedAll registers feeds = some final) (key : List UInt8) :
    Settles (registers.get? key) (keyed key (fed feeds)) (final.get? key) := by
  induction feeds generalizing registers with
  | nil =>
    obtain rfl := Option.some.inj h
    exact .kept fun r hr => absurd (mem_keyed.mp hr).1 List.not_mem_nil
  | cons feed feeds ih =>
    rw [feedAll, List.foldlM_cons] at h
    obtain ⟨mid, hmid, hrest⟩ := Option.bind_eq_some_iff.mp h
    have hsplit : keyed key (fed (feed :: feeds)) =
        keyed key feed.records ++ keyed key (fed feeds) := by
      rw [fed, List.flatMap_cons, keyed, List.filter_append]
      rfl
    rw [hsplit]
    exact (land_settles hmid key).append (ih hrest)

/-! ## Feeds that succeed -/

namespace Feed

end Feed

/-! ## The greatest record -/

lemma recordKey_injective {a b : ResourceName} (h : recordKey a = recordKey b) : a = b := by
  obtain ⟨a, ha⟩ := a
  obtain ⟨b, hb⟩ := b
  obtain rfl := QualifiedTag.ext_value (String.ofList_injective (Cbor.utf8_injective h))
  rfl

def DigestInjective (records : List (ResourceRecordV1 sha256)) : Prop :=
  Set.InjOn sha256 {body | ∃ r ∈ records, r.toResourceFields.encodeBody = .ok body}

lemma encodeBody_injective {f g : ResourceFields} {body : List UInt8}
    (hf : f.encodeBody = .ok body) (hg : g.encodeBody = .ok body) : f = g := by
  have hwire := Except.ok.inj ((decodeCanonicalStrict_of_encode "" hf).symm.trans
    (decodeCanonicalStrict_of_encode "" hg))
  have hread : f.wire [] = g.wire [] := by
    simp only [Prod.mk.injEq] at hwire
    simp only [ResourceFields.wire, Prod.mk.injEq]
    tauto
  exact Except.ok.inj ((f.read_wire []).symm.trans (hread ▸ g.read_wire []))

lemma DigestInjective.eq_of_digest {records : List (ResourceRecordV1 sha256)}
    (h : DigestInjective records) (ha : a ∈ records) (hb : b ∈ records)
    (hdigest : a.digest = b.digest) : a = b := by
  obtain ⟨body, hbody, habody⟩ := a.bound
  obtain ⟨body', hbody', hbbody⟩ := b.bound
  have hsame := h ⟨a, ha, hbody⟩ ⟨b, hb, hbody'⟩ (habody.trans (hdigest.trans hbbody.symm))
  subst hsame
  exact ResourceRecordV1.ext_fields (encodeBody_injective hbody hbody')

lemma digestInjective_iff {records : List (ResourceRecordV1 sha256)} :
    DigestInjective records ↔ ∀ a ∈ records, ∀ b ∈ records, a.digest = b.digest → a = b := by
  refine ⟨fun h a ha b hb => h.eq_of_digest ha hb, fun h => ?_⟩
  rintro body ⟨a, ha, hbody⟩ body' ⟨b, hb, hbody'⟩ hsame
  obtain ⟨x, hx, hxdigest⟩ := a.bound
  obtain ⟨y, hy, hydigest⟩ := b.bound
  obtain rfl := Except.ok.inj (hx.symm.trans hbody)
  obtain rfl := Except.ok.inj (hy.symm.trans hbody')
  have hrecord := h a ha b hb (hxdigest.symm.trans (hsame.trans hydigest))
  exact Except.ok.inj (hbody.symm.trans (hrecord ▸ hbody'))

def candidates (start : Registers) (feeds : List (Feed sha256)) (name : ResourceName) :
    List (ResourceRecordV1 sha256) :=
  (incumbent sha256 start name).toList ++ (fed feeds).filter fun r => r.name = name

lemma keyed_recordKey (name : ResourceName) (records : List (ResourceRecordV1 sha256)) :
    keyed (recordKey name) records = records.filter fun r => r.name = name := by
  refine List.filter_congr fun r _ => ?_
  rw [decide_eq_decide]
  exact ⟨fun h => recordKey_injective h, fun h => h ▸ rfl⟩

/-- **A register holds exactly the greatest of its records.** -/
theorem incumbent_eq_some_iff {start : Registers} (h : feedAll start feeds = some final)
    {name : ResourceName} (hinj : DigestInjective (candidates start feeds name))
    (best : ResourceRecordV1 sha256) :
    incumbent sha256 final name = some best ↔ Greatest (candidates start feeds name) best := by
  have hsettles := feedAll_settles h (recordKey name)
  rw [keyed_recordKey] at hsettles
  refine ⟨hsettles.greatest, fun hbest => ?_⟩
  obtain ⟨top, htop⟩ := hsettles.readable hbest.1
  obtain ⟨hmem, hle⟩ := hsettles.greatest htop
  have hrank : top.rank = best.rank := le_antisymm (hbest.2 top hmem) (hle best hbest.1)
  exact hinj.eq_of_digest hmem hbest.1 (ResourceRecordV1.digest_eq_of_rank_eq hrank) ▸ htop

lemma feedAll_congr {start final' : Registers} {feeds' : List (Feed sha256)}
    (h : feedAll start feeds = some final) (h' : feedAll start feeds' = some final')
    (hmem : ∀ r, r ∈ fed feeds ↔ r ∈ fed feeds')
    (hinj : ∀ name, DigestInjective (candidates start feeds name)) : final = final' := by
  refine OrdMap.ext_get? fun key => ?_
  refine (feedAll_settles h key).unique (feedAll_settles h' key) (fun r => ?_) ?_
  · rw [mem_keyed, mem_keyed, hmem]
  · intro a ha b hb hrank
    obtain ⟨hamem, hakey⟩ := mem_keyed.mp ha
    obtain ⟨hbmem, hbkey⟩ := mem_keyed.mp hb
    have hname : b.name = a.name := recordKey_injective (hbkey.trans hakey.symm)
    refine (hinj a.name).eq_of_digest ?_ ?_ (ResourceRecordV1.digest_eq_of_rank_eq hrank)
    · exact List.mem_append_right _ (List.mem_filter.mpr ⟨hamem, by simp⟩)
    · exact List.mem_append_right _ (List.mem_filter.mpr ⟨hbmem, by simp [hname]⟩)

/-! ## Preconditions -/

lemma commitPut_get?_of_ne {context : String} (h : key ≠ recordKey record.name) :
    (commitPut registers record context ended).store.get? key = registers.get? key := by
  rcases commitPut_cases registers record context ended with
    ⟨bytes, -, hput | ⟨applied, hput⟩⟩ | ⟨e, hput⟩
  · rw [hput]
    exact get?_install_of_ne h
  · rw [hput]
    cases applied with
    | false => rfl
    | true => exact get?_install_of_ne h
  · rw [hput]
    rfl

lemma eq_of_matchesRecord {x e : ResourceRecordV1 sha256} (hinj : DigestInjective [x, e])
    (h : (ResourceVersion.fromRecord x).matchesRecord e = true) : x = e := by
  simp only [ResourceVersion.matchesRecord, Bool.and_eq_true, decide_eq_true_eq] at h
  exact hinj.eq_of_digest (by simp) (by simp) h.2

lemma commitExpectedRecord_changes {version : ResourceVersion}
    (h : (commitExpectedRecord registers record (some version) ended).store.get? key ≠
      registers.get? key) :
    key = recordKey record.name ∧ ∃ e, incumbent sha256 registers record.name = some e ∧
      version.matchesRecord e = true ∧ e.rank < record.rank := by
  rcases commitExpectedRecord_cases registers record (some version) ended with
    ⟨existing, -, hcommit, -⟩ | ⟨-, hcommit⟩ | ⟨hadmitted, hcommit⟩
  · rw [hcommit] at h
    exact absurd rfl h
  · rw [hcommit] at h
    exact absurd rfl h
  · rw [hcommit, noteInstalled_registers] at h
    obtain ⟨e, he, hmatches⟩ := hadmitted.observed version rfl
    exact ⟨not_not.mp fun hne => h (commitPut_get?_of_ne hne), e, he, hmatches,
      hadmitted.beats e he⟩

lemma commitRemoval_changes {expected : ResourceRecordV1 sha256}
    (h : (commitRemoval registers record expected ended).store.get? key ≠ registers.get? key) :
    key = recordKey record.name ∧ incumbent sha256 registers record.name = some expected ∧
      expected.rank < record.rank := by
  rcases commitRemoval_cases registers record expected ended with
    ⟨answer, hcommit⟩ | ⟨hstored, hlt, hcommit⟩
  · rw [hcommit] at h
    exact absurd rfl h
  · rw [hcommit] at h
    exact ⟨not_not.mp fun hne => h (commitPut_get?_of_ne hne), hstored, hlt⟩

/-- **The registers converge.**  After any feed whose commits all succeeded a register holds
exactly the greatest of the record it started with and the records fed for its name, and
any other feed of the same records leaves the same rows.  A preconditioned put or a
removal changes a row only from the record it expects to a greater one. -/
theorem registers_converge {start final : Registers} {feeds : List (Feed sha256)}
    (hfeed : feedAll start feeds = some final)
    (hinj : ∀ name, DigestInjective (candidates start feeds name)) :
    (∀ name best, incumbent sha256 final name = some best ↔
      Greatest (candidates start feeds name) best) ∧
    (∀ feeds' final', feedAll start feeds' = some final' →
      (∀ r, r ∈ fed feeds ↔ r ∈ fed feeds') → final' = final) ∧
    (∀ registers (record : ResourceRecordV1 sha256) version ended key,
      (commitExpectedRecord registers record (some version) ended).store.get? key ≠
          registers.get? key →
        key = recordKey record.name ∧ ∃ e, incumbent sha256 registers record.name = some e ∧
          version.matchesRecord e = true ∧ e.rank < record.rank ∧
          ∀ x, version = .fromRecord x → DigestInjective [x, e] → x = e) ∧
    ∀ registers (record expected : ResourceRecordV1 sha256) ended key,
      (commitRemoval registers record expected ended).store.get? key ≠ registers.get? key →
        key = recordKey record.name ∧ incumbent sha256 registers record.name = some expected ∧
          expected.rank < record.rank := by
  refine ⟨fun name best => incumbent_eq_some_iff hfeed (hinj name) best, ?_, ?_, ?_⟩
  · intro feeds' final' hfeed' hmem
    exact (feedAll_congr hfeed hfeed' hmem hinj).symm
  · intro registers record version ended key hchanged
    obtain ⟨hkey, e, hstored, hmatches, hlt⟩ := commitExpectedRecord_changes hchanged
    refine ⟨hkey, e, hstored, hmatches, hlt, ?_⟩
    rintro x rfl hpair
    exact eq_of_matchesRecord hpair hmatches
  · intro registers record expected ended key hchanged
    exact commitRemoval_changes hchanged

/-! ### A feed of two records -/

def ResourceRecordV1.ofFields (sha256 : Hash) (fields : ResourceFields)
    (h : fields.encodeBody.isOk = true) : ResourceRecordV1 sha256 where
  toResourceFields := fields
  digest := sha256 (fields.encodeBody.toOption.getD [])
  bound := by
    cases hbody : fields.encodeBody with
    | error e =>
      rw [hbody] at h
      cases h
    | ok body => exact ⟨body, rfl, rfl⟩

def sampleName : ResourceName :=
  ⟨⟨"a.b/resources/r".toList, 3, 13, none, by decide +kernel⟩, by decide +kernel⟩

def sampleFields (stamp : Fin 4) (removed : Bool) : ResourceFields where
  name := sampleName
  resourceType := ⟨['t'], by decide⟩
  resourceUri := ⟨['u'], by decide⟩
  labels := .new
  timestampMillis := ⟨stamp, by omega⟩
  writer := ⟨"node-000000000000000000001".toList, by decide +kernel⟩
  removalRank := if removed then 1 else 0
  removed := removed

def sampleRecord (stamp : Fin 4) (removed : Bool) : ResourceRecordV1 sumHash :=
  .ofFields sumHash (sampleFields stamp removed) (by revert stamp removed; decide +kernel)

def sampleFeed : List (Feed sumHash) :=
  [.page [sampleRecord 1 false, sampleRecord 2 false] .conflict .committed,
    .put (sampleRecord 1 false) .committed]

lemma mem_sampleFeed {name : ResourceName} {r : ResourceRecordV1 sumHash}
    (h : r ∈ candidates .empty sampleFeed name) :
    r = sampleRecord 1 false ∨ r = sampleRecord 2 false := by
  rcases List.mem_append.mp h with h | h
  · cases h
  · have hfed := (List.mem_filter.mp h).1
    simp only [fed, sampleFeed, Feed.records, List.flatMap_cons, List.flatMap_nil, List.append_nil,
      List.cons_append, List.nil_append, List.mem_cons, List.not_mem_nil, or_false] at hfed
    tauto

theorem registers_converge_sample : ∃ final, feedAll .empty sampleFeed = some final ∧
    incumbent sumHash final sampleName = some (sampleRecord 2 false) := by
  obtain ⟨final, hfinal⟩ : ∃ final, feedAll .empty sampleFeed = some final :=
    Option.isSome_iff_exists.mp (by decide +kernel)
  have hfacts : (sampleRecord 1 false).digest ≠ (sampleRecord 2 false).digest ∧
      (sampleRecord 2 false).winsOver (sampleRecord 1 false) = true := by decide +kernel
  have hinj : ∀ name, DigestInjective (candidates .empty sampleFeed name) := by
    intro name
    refine digestInjective_iff.mpr fun a ha b hb hdigest => ?_
    rcases mem_sampleFeed ha with rfl | rfl <;> rcases mem_sampleFeed hb with rfl | rfl
    · rfl
    · exact absurd hdigest hfacts.1
    · exact absurd hdigest.symm hfacts.1
    · rfl
  refine ⟨final, hfinal, ((registers_converge hfinal hinj).1 _ _).mpr ⟨?_, fun r hr => ?_⟩⟩
  · exact List.mem_append_right _ (List.mem_filter.mpr ⟨.tail _ (.head _), decide_eq_true rfl⟩)
  · rcases mem_sampleFeed hr with rfl | rfl
    · exact (ResourceRecordV1.winsOver_iff.mp hfacts.2).le
    · exact le_rfl

end Radiata.Resource
