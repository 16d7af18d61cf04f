import UBoot.GptCreator

/-!
`tools/ingenic-tools/gpt_tab_to_c.sh`, the script that turns a text with partitions into an array of C, and
`spl_get_built_in_gpt_partition`, which looks a partition up in the array. Words are split at blanks only: no word is the
name of a file pattern or an option of `echo`. An array that does not compile is `none`.
-/
namespace UBoot.GptTabToC
open CStrings CNumbers GptCreator

/-! ### Lines and words -/

/-- The lines of `while read line`, from the line that is being read on. A backslash takes the next character as it is,
    and joins two lines; a last line without a newline is not seen. -/
def readLines : List UInt8 → List UInt8 → List (List UInt8)
  | _, [] => []
  | _, [92] => []
  | line, 92 :: c :: rest => if c = newline then readLines line rest else readLines (line ++ [c]) rest
  | line, c :: rest => if c = newline then line :: readLines [] rest else readLines (line ++ [c]) rest

def ifs (c : UInt8) : Bool := c = space || c = tab || c = newline

def words (str : List UInt8) : List (List UInt8) := (str.splitOnP ifs).filter (· ≠ [])

/-- Nothing is printed when there is no such word. -/
def get_word (str : List UInt8) (n : Nat) : List UInt8 := (words str).getD n []

/-- `${str:0-1}`. -/
def lastChar (str : List UInt8) : List UInt8 := str.getLast?.toList

/-- `${str%%$c}`, for a string that ends with `c`. -/
def cutLast (str c : List UInt8) : List UInt8 := str.take (str.length - c.length)

/-- What is printed, and whether the result is 0. An empty first argument is no argument at all. -/
def delete_r_char (args : List (List UInt8)) : List UInt8 × Bool :=
  let str := args.getD 0 []
  let c := args.getD 1 []
  if lastChar str = c then (cutLast str c,true) else (str,false)

def delete_r_char2 (args : List (List UInt8)) : List UInt8 :=
  let str := args.getD 0 []
  let c1 := args.getD 1 []
  let c2 := args.getD 2 []
  if lastChar str = c1 then cutLast str c1
  else if lastChar str = c2 then cutLast str c2
  else str

/-- `none` is the result 1. -/
def parse_size (args : List (List UInt8)) : Option (List UInt8) :=
  let str := args.getD 0 []
  let str := delete_r_char2 (words str ++ [ascii "b",ascii "B"])
  let str_g := delete_r_char2 (words str ++ [ascii "g",ascii "G"])
  let str_m := delete_r_char2 (words str ++ [ascii "m",ascii "M"])
  let str_k := delete_r_char2 (words str ++ [ascii "k",ascii "K"])
  if str_g = [] ∨ str_m = [] ∨ str_k = [] then none
  else
    let ret := str
    let ret := if str ≠ str_g then str_g ++ ascii "*GB_SECTOR" else ret
    let ret := if str ≠ str_m then str_m ++ ascii "*MB_SECTOR" else ret
    some (if str ≠ str_k then str_k ++ ascii "*KB_SECTOR" else ret)

/-! ### The script -/

structure Row where
  partition_name : List UInt8
  partition_start : List UInt8
  partition_size : List UInt8
deriving DecidableEq

/-- The word with the size, when `has_q` says whether a comma was found behind the start. -/
def sizeWord (line : List UInt8) (has_q : Bool) : Option (List UInt8) :=
  let str3 := get_word line 3
  if has_q then some str3
  else if str3.head? ≠ some comma then none
  else if str3 = [comma] then
    if get_word line 4 = [] then none else some (get_word line 4)
  else some str3.tail

/-- The line of the array, when `str3` is the word with the size. -/
def sizeRow (str str2 str3 : List UInt8) : Option Row :=
  let str3 := (delete_r_char (words str3 ++ [[comma]])).1
  if str3 = [] then none
  else (parse_size (words str3)).map fun str3 => ⟨str,str2,str3⟩

/-- A line inside of the group; `none` is a line that is skipped. -/
def partitionLine (line : List UInt8) : Option Row :=
  if get_word line 1 ≠ [equalSign] then none
  else
    let (str2,has_q) := delete_r_char (words (get_word line 2) ++ [[comma]])
    if str2 = [] then none
    else do
      let str2 ← parse_size (words str2)
      let str3 ← sizeWord line has_q
      sizeRow (get_word line 0) str2 str3

/-- The loop over the lines; `found` is the status. -/
def tabLoop : Bool → List (List UInt8) → List Row
  | _, [] => []
  | found, line :: lines =>
    let str := get_word line 0
    if str = ascii "partition:" then tabLoop true lines
    else if found = false then tabLoop found lines
    else if str.head? = some hash then tabLoop found lines
    else if str.getLast? = some colon then []
    else (partitionLine line).toList ++ tabLoop found lines

def gpt_tab_to_c (file : List UInt8) : List Row := tabLoop false (readLines [] file)

/-! ### The array -/

def GB_SECTOR : Nat := 1024 * 1024 * 1024 / 512
def MB_SECTOR : Nat := 1024 * 1024 / 512
def KB_SECTOR : Nat := 1024 / 512

def factorOf (text : List UInt8) : Option Nat :=
  if text = [] then some 1
  else if text = ascii "*GB_SECTOR" then some GB_SECTOR
  else if text = ascii "*MB_SECTOR" then some MB_SECTOR
  else if text = ascii "*KB_SECTOR" then some KB_SECTOR
  else none

/-- The value of a literal, which is octal behind a 0. -/
def literal (digits : List UInt8) : Option Nat :=
  let value := fun base => digits.foldl (fun n c => base * n + (c.toNat - 48)) 0
  match digits with
  | [] => none
  | 48 :: _ => if digits.all (· < 56) then some (value 8) else none
  | _ => some (value 10)

/-- An expression as an `unsigned int`. Overflow is folded modulo 2^32; any other text does not compile. -/
def initialiser (text : List UInt8) : Option (BitVec 32) := do
  let n ← literal (text.takeWhile isdigit)
  let factor ← factorOf (text.dropWhile isdigit)
  some (BitVec.ofNat 32 (n * factor))

/-- `struct mmc_partition_data`. -/
structure MmcPartitionData where
  name : List UInt8
  offset_sector : BitVec 32
  size_sector : BitVec 32

def Row.compile (row : Row) : Option MmcPartitionData := do
  some ⟨row.partition_name,← initialiser row.partition_start,← initialiser row.partition_size⟩

def partition_tab (file : List UInt8) : Option (List MmcPartitionData) := (gpt_tab_to_c file).mapM Row.compile

def spl_get_built_in_gpt_partition (partition_tab : List MmcPartitionData) (name : List UInt8) : Option (BitVec 32 × BitVec 32) :=
  (partition_tab.find? (·.name = name)).map fun data => (data.offset_sector,data.size_sector)

end UBoot.GptTabToC
