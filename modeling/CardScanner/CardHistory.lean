import CardScanner.JavaCast
import Mathlib.Data.List.Induction
import Mathlib.Tactic.NormNum

/-!
# The card history

`DatabaseHandler` keeps the scanned cards in the table `card_history`.  Rows are
written by column name and read by position; the table's own id is a 64-bit
number that is never used twice, the model's an `int`.

What the table should hold is said of the history of calls alone
(`survivors`): for each card added, what the later calls have made of it.  One
more call changes the survivors as it changes the rows (`survivors_concat`,
`apply_rowOf`), so the two agree after every history.  The ids agree as long as
they fit an `int`.
-/

namespace CardScanner

/-! ## The source -/

/-- `CardHistoryModel`; a text may be `null`. -/
structure CardHistoryModel where
  id : ℤ
  contactName : Option (List Char)
  phoneNumber : Option (List Char)
  emailAddress : Option (List Char)
  cardImageBase64 : Option (List Char)
  cardUri : Option (List Char)
  htmlText : Option (List Char)
  deriving DecidableEq, Repr

/-- The constructor. -/
def CardHistoryModel.new (contactName phoneNumber emailAddress cardImageBase64 cardUri htmlText :
    Option (List Char)) : CardHistoryModel :=
  ⟨-1, contactName, phoneNumber, emailAddress, cardImageBase64, cardUri, htmlText⟩

/-- A card under another id, its six texts as they are. -/
def CardHistoryModel.setId (model : CardHistoryModel) (id : ℤ) : CardHistoryModel :=
  { model with id := id }

/-- The columns of `CREATE TABLE card_history` after `id`, all `TEXT`. -/
def textColumns : List String :=
  ["contact_name", "phone_number", "email", "card_base64", "card_uri", "html_text"]

/-- A row: the value of `id INTEGER PRIMARY KEY AUTOINCREMENT`, which is column
0, and those of the text columns, from column 1 on. -/
structure Row where
  id : ℤ
  texts : List (Option (List Char))
  deriving DecidableEq, Repr

/-- The table, with the largest id it has ever given. -/
structure HistoryTable where
  seq : ℤ
  rows : List Row
  deriving DecidableEq, Repr

/-- `ContentValues`. -/
abbrev ContentValues := List (String × Option (List Char))

/-- The values `addCardHistory` and `updateCardHistory` put. -/
def contentValues (model : CardHistoryModel) : ContentValues :=
  [("contact_name", model.contactName), ("phone_number", model.phoneNumber),
    ("email", model.emailAddress), ("card_base64", model.cardImageBase64),
    ("card_uri", model.cardUri), ("html_text", model.htmlText)]

/-- `addCardHistory`.  The new id is one above all ids ever given; when there
is none left, nothing is inserted. -/
def addCardHistory (table : HistoryTable) (model : CardHistoryModel) : HistoryTable :=
  if table.seq = 2 ^ 63 - 1 then table
  else
    let texts := textColumns.map fun column => ((contentValues model).lookup column).getD none
    ⟨table.seq + 1, table.rows ++ [⟨table.seq + 1, texts⟩]⟩

/-- The text columns named in the values are set, the others kept. -/
def Row.set (row : Row) (values : ContentValues) : Row :=
  let texts := List.zipWith (fun column text => (values.lookup column).getD text)
    textColumns row.texts
  { row with texts := texts }

/-- `updateCardHistory`: the rows `WHERE id = ?`. -/
def updateCardHistory (table : HistoryTable) (model : CardHistoryModel) : HistoryTable :=
  { table with rows := table.rows.map fun row =>
      if row.id = model.id then row.set (contentValues model) else row }

/-- `deleteCardHistoryById`: the rows with the id go, of which there is one at
most. -/
def deleteCardHistoryById (table : HistoryTable) (id : ℤ) : HistoryTable :=
  { table with rows := table.rows.filter fun row => row.id ≠ id }

/-- `cursor.getInt(0)`: of the id, a `long`, only the lower 32 bits are read. -/
def Row.getInt (row : Row) : ℤ := intOfLong row.id

/-- `cursor.getString` at a position from 1 on. -/
def Row.getString (row : Row) (position : ℕ) : Option (List Char) :=
  row.texts.getD (position - 1) none

/-- `getAllCardHistory`; the rows come in the order of their ids. -/
def getAllCardHistory (table : HistoryTable) : List CardHistoryModel :=
  table.rows.map fun row =>
    (CardHistoryModel.new (row.getString 1) (row.getString 2) (row.getString 3)
      (row.getString 4) (row.getString 5) (row.getString 6)).setId row.getInt

/-! ## Histories -/

/-- A call of the handler. -/
inductive HistoryCall where
  | add (model : CardHistoryModel)
  | update (model : CardHistoryModel)
  | delete (id : ℤ)
  deriving DecidableEq, Repr

/-- One call on the table.  What the calls return is not used by the next one. -/
def HistoryCall.apply (table : HistoryTable) : HistoryCall → HistoryTable
  | .add model => addCardHistory table model
  | .update model => updateCardHistory table model
  | .delete id => deleteCardHistoryById table id

/-- The table after a history of calls, from the empty one. -/
def runHistory (calls : List HistoryCall) : HistoryTable :=
  calls.foldl HistoryCall.apply ⟨0, []⟩

/-- The id an update or a deletion is about. -/
def HistoryCall.target : HistoryCall → Option ℤ
  | .add _ => none
  | .update model => some model.id
  | .delete id => some id

/-- The number of cards added. -/
def added : List HistoryCall → ℕ
  | [] => 0
  | .add _ :: later => added later + 1
  | _ :: later => added later

/-- What later calls make of a card with this id and these texts. -/
def written (id : ℤ) (model : CardHistoryModel) : List HistoryCall → Option CardHistoryModel
  | [] => some (model.setId id)
  | .add _ :: later => written id model later
  | .update update :: later =>
    if update.id = id then written id update later else written id model later
  | .delete deleted :: later => if deleted = id then none else written id model later

/-- The cards that survive a history, in the order they were added, each with
the texts last written; `ids` names them, the first one added with `ids k`. -/
def survivors (ids : ℕ → ℤ) (k : ℕ) : List HistoryCall → List CardHistoryModel
  | [] => []
  | .add model :: later => (written (ids k) model later).toList ++ survivors ids (k + 1) later
  | _ :: later => survivors ids k later

/-! ## One more call -/

theorem added_concat (calls : List HistoryCall) (call : HistoryCall) :
    added (calls ++ [call]) = added calls + added [call] := by
  induction calls with
  | nil => simp [added]
  | cons first later ih =>
      cases first with
      | add model =>
          simp only [List.cons_append, added, ih]
          omega
      | update model => exact ih
      | delete id => exact ih

/-- What a call makes of a card. -/
def HistoryCall.rewrite (card : CardHistoryModel) : HistoryCall → Option CardHistoryModel
  | .add _ => some card
  | .update model => some (if model.id = card.id then model else card)
  | .delete id => if id = card.id then none else some card

/-- A further call rewrites the card that the calls before it have left, if it
is about this id. -/
theorem written_concat (id : ℤ) (model : CardHistoryModel) (calls : List HistoryCall)
    (call : HistoryCall) :
    written id model (calls ++ [call]) =
      (written id model calls).bind fun card => call.rewrite card := by
  induction calls generalizing model with
  | nil =>
      cases call with
      | add other => rfl
      | update other =>
          by_cases hid : other.id = id
          · subst hid
            simp [written, HistoryCall.rewrite, CardHistoryModel.setId]
          · simp [written, HistoryCall.rewrite, CardHistoryModel.setId, hid]
      | delete other =>
          by_cases hid : other = id
          · simp [written, HistoryCall.rewrite, CardHistoryModel.setId, hid]
          · simp [written, HistoryCall.rewrite, CardHistoryModel.setId, hid]
  | cons first later ih =>
      cases first with
      | add other => exact ih model
      | update other =>
          simp only [List.cons_append, written]
          split_ifs
          · exact ih other
          · exact ih model
      | delete other =>
          simp only [List.cons_append, written]
          split_ifs
          · rfl
          · exact ih model

/-- The card a call adds. -/
def HistoryCall.newCard (id : ℤ) : HistoryCall → List CardHistoryModel
  | .add model => [model.setId id]
  | _ => []

/-- One more call rewrites the survivors and adds its own card.  By induction
on the calls before it, with the number of ids that are taken. -/
theorem survivors_concat (ids : ℕ → ℤ) (k : ℕ) (calls : List HistoryCall) (call : HistoryCall) :
    survivors ids k (calls ++ [call]) =
      (survivors ids k calls).filterMap (fun card => call.rewrite card) ++
        call.newCard (ids (k + added calls)) := by
  induction calls generalizing k with
  | nil => cases call <;> rfl
  | cons first later ih =>
      cases first with
      | add model =>
          simp only [List.cons_append, survivors, added, written_concat, ih,
            List.filterMap_append, List.append_assoc]
          have hcard : ((written (ids k) model later).bind fun card => call.rewrite card).toList =
              (written (ids k) model later).toList.filterMap fun card => call.rewrite card := by
            cases written (ids k) model later with
            | none => rfl
            | some card =>
                simp only [Option.bind_some, Option.toList_some, List.filterMap_cons,
                  List.filterMap_nil]
                cases call.rewrite card <;> rfl
          have hindex : k + 1 + added later = k + (added later + 1) := by omega
          rw [hcard, hindex]
      | update model => exact ih k
      | delete id => exact ih k

/-! ## The table keeps the survivors -/

/-- The row that keeps a card. -/
def rowOf (card : CardHistoryModel) : Row where
  id := card.id
  texts := [card.contactName, card.phoneNumber, card.emailAddress, card.cardImageBase64,
    card.cardUri, card.htmlText]

@[simp] theorem rowOf_id (card : CardHistoryModel) : (rowOf card).id = card.id := rfl

/-- The values put by name are in the order of the columns. -/
theorem insert_texts (model : CardHistoryModel) (id : ℤ) :
    (⟨id, textColumns.map fun column => ((contentValues model).lookup column).getD none⟩ : Row) =
      rowOf (model.setId id) := rfl

/-- Setting all columns of a row but the id gives the row of the new card
under the old id. -/
theorem set_rowOf (card model : CardHistoryModel) :
    (rowOf card).set (contentValues model) = rowOf (model.setId card.id) := rfl

/-- One call on a table that keeps a list of cards, while ids are left: the
table keeps the list that the call makes of it. -/
theorem apply_rowOf (n : ℕ) (cards : List CardHistoryModel) (call : HistoryCall)
    (hspace : n + added [call] < 2 ^ 63) :
    call.apply ⟨n, cards.map rowOf⟩ =
      ⟨(n + added [call] : ℕ), (cards.filterMap (fun card => call.rewrite card) ++
        call.newCard (n + 1)).map rowOf⟩ := by
  cases call with
  | add model =>
      have hfull : ¬ ((n : ℤ) = 2 ^ 63 - 1) := by
        simp only [added] at hspace
        omega
      simp only [HistoryCall.apply, addCardHistory, if_neg hfull, insert_texts,
        HistoryCall.rewrite, HistoryCall.newCard, List.filterMap_some, List.map_append,
        List.map_cons, List.map_nil, added]
      push_cast
      rfl
  | update model =>
      simp only [HistoryCall.apply, updateCardHistory, HistoryCall.rewrite, HistoryCall.newCard,
        List.filterMap_eq_map', List.append_nil, List.map_map, added]
      congr 1
      apply List.map_congr_left
      intro card _
      by_cases hid : card.id = model.id
      · have hset : model.setId card.id = model := by
          rw [hid]
          rfl
        simp only [Function.comp_apply, rowOf_id, if_pos hid, if_pos hid.symm, set_rowOf, hset]
      · rw [Function.comp_apply, Function.comp_apply, if_neg (Ne.symm hid)]
        exact if_neg hid
  | delete id =>
      simp only [HistoryCall.apply, deleteCardHistoryById, HistoryCall.rewrite,
        HistoryCall.newCard, List.append_nil, added]
      congr 1
      induction cards with
      | nil => rfl
      | cons card rest ih =>
          rw [List.map_cons, List.filterMap_cons]
          by_cases hid : card.id = id
          · rw [if_pos hid.symm, List.filter_cons_of_neg (by simp [hid])]
            exact ih
          · rw [if_neg (Ne.symm hid), List.filter_cons_of_pos (by simp [hid]), List.map_cons]
            exact congrArg _ ih

/-- The first card added gets id 1, and so on. -/
def rowIds (k : ℕ) : ℤ := k + 1

/-- After every history the rows are those of the survivors. -/
theorem runHistory_eq (calls : List HistoryCall) (hspace : added calls < 2 ^ 63) :
    runHistory calls = ⟨added calls, (survivors rowIds 0 calls).map rowOf⟩ := by
  induction calls using List.reverseRecOn with
  | nil => rfl
  | append_singleton calls call ih =>
      rw [added_concat] at hspace
      have hrun : runHistory (calls ++ [call]) = call.apply (runHistory calls) := by
        simp [runHistory]
      rw [hrun, ih (by omega), apply_rowOf _ _ _ hspace, survivors_concat, added_concat, zero_add]
      rfl

/-- What is read, for as long as the table has ids to give: the survivors in
the order of their ids, each under its id cut to an int. -/
theorem getAllCardHistory_eq (calls : List HistoryCall) (hspace : added calls < 2 ^ 63) :
    getAllCardHistory (runHistory calls) =
      (survivors rowIds 0 calls).map fun card => card.setId (intOfLong card.id) := by
  rw [runHistory_eq calls hspace]
  unfold getAllCardHistory
  rw [List.map_map]
  rfl

theorem id_written {id : ℤ} {model card : CardHistoryModel} {calls : List HistoryCall}
    (h : written id model calls = some card) : card.id = id := by
  induction calls generalizing model with
  | nil =>
      rw [← Option.some.inj h]
      rfl
  | cons call later ih =>
      cases call with
      | add other => exact ih h
      | update other =>
          rw [written] at h
          split_ifs at h
          · exact ih h
          · exact ih h
      | delete other =>
          rw [written] at h
          split_ifs at h
          exact ih h

/-- The id of a survivor is the one given when its card was added: no update
changes it. -/
theorem id_of_mem_survivors {ids : ℕ → ℤ} {k : ℕ} {calls : List HistoryCall}
    {card : CardHistoryModel} (h : card ∈ survivors ids k calls) :
    ∃ i, k ≤ i ∧ i < k + added calls ∧ card.id = ids i := by
  induction calls generalizing k with
  | nil => cases h
  | cons call later ih =>
      cases call with
      | add model =>
          rw [survivors, List.mem_append, Option.mem_toList] at h
          rcases h with hfirst | hlater
          · exact ⟨k, le_rfl, by simp [added], id_written hfirst⟩
          · obtain ⟨i, hlow, hhigh, hid⟩ := ih hlater
            refine ⟨i, by omega, ?_, hid⟩
            simp only [added]
            omega
      | update model => exact ih h
      | delete id => exact ih h

/-! ## The law of the store -/

/-- What the table promises over a history.  There are ids, one for each card
added and no two alike, such that at every moment the cards read are the
survivors; and an update or a deletion leaves the cards with other ids alone. -/
structure StoreLaw (calls : List HistoryCall) : Prop where
  survivors : ∃ ids : ℕ → ℤ, (∀ i < added calls, ∀ j < added calls, ids i = ids j → i = j) ∧
    ∀ past, past <+: calls → getAllCardHistory (runHistory past) = survivors ids 0 past
  others : ∀ past call id, past ++ [call] <+: calls → call.target = some id →
    (getAllCardHistory (runHistory (past ++ [call]))).filter (fun card => card.id ≠ id) =
      (getAllCardHistory (runHistory past)).filter fun card => card.id ≠ id

theorem added_le_of_past {past calls : List HistoryCall} (h : past <+: calls) :
    added past ≤ added calls := by
  obtain ⟨later, rfl⟩ := h
  induction later using List.reverseRecOn with
  | nil => simp
  | append_singleton later call ih =>
      rw [← List.append_assoc, added_concat]
      omega

/-- While the ids fit an `int` they are read as they are. -/
theorem getAllCardHistory_survivors {calls : List HistoryCall} (hfit : added calls < 2 ^ 31) :
    getAllCardHistory (runHistory calls) = survivors rowIds 0 calls := by
  rw [getAllCardHistory_eq calls (by omega)]
  conv_rhs => rw [← List.map_id (survivors rowIds 0 calls)]
  apply List.map_congr_left
  intro card hcard
  obtain ⟨i, _, hi, hid⟩ := id_of_mem_survivors hcard
  have hsame : intOfLong card.id = card.id := by
    rw [hid, rowIds]
    exact intOfLong_of_lt (by omega) (by omega)
  rw [hsame]
  rfl

/-- A call about one id leaves the cards with other ids alone, in number,
order and content. -/
theorem filter_rewrite (cards : List CardHistoryModel) {call : HistoryCall} {id : ℤ}
    (htarget : call.target = some id) :
    (cards.filterMap fun card => call.rewrite card).filter (fun card => card.id ≠ id) =
      cards.filter fun card => card.id ≠ id := by
  induction cards with
  | nil => rfl
  | cons card rest ih =>
      have hrewrite : (call.rewrite card).toList.filter (fun card => card.id ≠ id) =
          [card].filter fun card => card.id ≠ id := by
        cases call with
        | add model => cases htarget
        | update model =>
            have hid : model.id = id := Option.some.inj htarget
            simp only [HistoryCall.rewrite]
            split_ifs with hsame
            · simp [hid, ← hsame]
            · rfl
        | delete other =>
            have hid : other = id := Option.some.inj htarget
            simp only [HistoryCall.rewrite]
            split_ifs with hsame
            · simp [hid, ← hsame]
            · rfl
      have hcons : (card :: rest).filterMap (fun card => call.rewrite card) =
          (call.rewrite card).toList ++ rest.filterMap fun card => call.rewrite card := by
        rw [List.filterMap_cons]
        cases call.rewrite card <;> rfl
      rw [hcons, List.filter_append, hrewrite, ih, ← List.filter_append]
      rfl

/-- **The history keeps what was written.**  After every history in which the
ids fit an `int`, the cards read are the surviving ones with the texts last
written, under distinct ids never given twice, and no call touches a card with
another id. -/
theorem storeLaw {calls : List HistoryCall} (hfit : added calls < 2 ^ 31) : StoreLaw calls where
  survivors := by
    refine ⟨rowIds, ?_, ?_⟩
    · intro i _ j _ hij
      simp only [rowIds] at hij
      omega
    · intro past hpast
      exact getAllCardHistory_survivors ((added_le_of_past hpast).trans_lt hfit)
  others := by
    intro past call id hpast htarget
    have hcalls := (added_le_of_past hpast).trans_lt hfit
    have hadded := added_concat past call
    have hnone : ∀ id, call.newCard id = [] := by
      cases call with
      | add model => cases htarget
      | update model => exact fun _ => rfl
      | delete other => exact fun _ => rfl
    rw [getAllCardHistory_survivors hcalls, getAllCardHistory_survivors (by omega),
      survivors_concat, hnone, List.append_nil]
    exact filter_rewrite _ htarget

/-- A card with six different texts. -/
def annCard : CardHistoryModel :=
  CardHistoryModel.new (some ['A', 'n', 'n']) (some ['0', '9', '1']) (some ['a', '@', 'x'])
    (some ['Z', 'g']) (some ['f', ':']) (some ['<', 'p', '>'])

/-- And one that shares none of them, with a text missing. -/
def bobCard : CardHistoryModel :=
  CardHistoryModel.new (some ['B', 'o', 'b']) (some ['0', '8']) (some ['b', '@', 'y'])
    (some ['Q', '=', '=']) none (some ['<', 'b', '>'])

/-- Two cards, the first one overwritten and the second one deleted, and a
third. -/
theorem storeLaw_three :
    StoreLaw [.add annCard, .add bobCard, .update (bobCard.setId 1), .delete 2, .add annCard] :=
  storeLaw (by decide)

/-- Cards that are added and deleted one after the other, so that the table
never has more than one row. -/
def addAndDelete (model : CardHistoryModel) : ℕ → List HistoryCall
  | 0 => []
  | n + 1 => addAndDelete model n ++ [.add model] ++ [.delete (n + 1)]

/-- Deleting each card at once does not take back that it was added: this is
how ids run out while the table stays small. -/
theorem added_addAndDelete (model : CardHistoryModel) (n : ℕ) :
    added (addAndDelete model n) = n := by
  induction n with
  | zero => rfl
  | succ n ih =>
      rw [addAndDelete, added_concat, added_concat, ih]
      rfl

/-- The last survivor when a card has just been added. -/
theorem survivors_add (ids : ℕ → ℤ) (past : List HistoryCall) (model : CardHistoryModel) :
    (survivors ids 0 (past ++ [.add model])).getLast? = some (model.setId (ids (added past))) := by
  rw [survivors_concat, zero_add]
  exact List.getLast?_concat

/-- And when one has been changed since. -/
theorem survivors_add_update (ids : ℕ → ℤ) (past : List HistoryCall)
    (model update : CardHistoryModel) :
    (survivors ids 0 (past ++ [.add model] ++ [.update update])).getLast? =
      some (if update.id = ids (added past) then update else model.setId (ids (added past))) := by
  rw [survivors_concat, survivors_concat, List.filterMap_append, zero_add]
  simp only [HistoryCall.newCard, HistoryCall.rewrite, List.append_nil]
  exact List.getLast?_concat

/-- The `2 ^ 31`-th card is read with a negative id, and an update under that
id reaches no row. -/
theorem not_storeLaw : ¬ ∀ calls : List HistoryCall, StoreLaw calls := by
  intro hlaw
  obtain ⟨past, hpast⟩ : ∃ past, added past = 2 ^ 31 - 1 :=
    ⟨addAndDelete annCard _, added_addAndDelete annCard _⟩
  let update : CardHistoryModel := { annCard with id := -2 ^ 31, contactName := none }
  obtain ⟨⟨ids, _, hread⟩, _⟩ := hlaw (past ++ [.add annCard] ++ [.update update])
  have hadd := hread _ (List.prefix_append _ _)
  have hupdate := hread _ List.prefix_rfl
  have hcount : added (past ++ [.add annCard]) = 2 ^ 31 := by
    rw [added_concat, hpast]
    norm_num [added]
  have hcount' : added (past ++ [.add annCard] ++ [.update update]) = 2 ^ 31 := by
    rw [added_concat, hcount]
    norm_num [added]
  have hrow : rowIds (added past) = 2 ^ 31 := by
    rw [hpast]
    norm_num [rowIds]
  have hwrap : intOfLong (2 ^ 31) = -2 ^ 31 := by norm_num [intOfLong]
  have hgiven : ids (added past) = -2 ^ 31 := by
    have hlast := congrArg List.getLast? hadd
    rw [getAllCardHistory_eq _ (by omega), List.getLast?_map, survivors_add, survivors_add,
      hrow] at hlast
    exact (congrArg CardHistoryModel.id (Option.some.inj hlast)).symm.trans hwrap
  have hlast := congrArg List.getLast? hupdate
  rw [getAllCardHistory_eq _ (by omega), List.getLast?_map, survivors_add_update,
    survivors_add_update, hrow, hgiven, if_pos rfl] at hlast
  have hname := congrArg CardHistoryModel.contactName (Option.some.inj hlast)
  cases hname

end CardScanner
