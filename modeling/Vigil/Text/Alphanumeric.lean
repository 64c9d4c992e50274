import Vigil.Text.Ranges

/-!
# Vigil.Text.Alphanumeric — letters, their signs, and numerals

Runs of code points that are letters of some script, vowel signs and other
marks that spell, or numerals of any kind. Names of variables and of log
targets are told from what surrounds them by this class. Names in patterns
start with a letter.

* `Text.isAlphanumeric` — a letter or a numeral.
* `Text.isAlphabetic` — a letter.
-/

namespace Vigil.Text

/-- From `U+80` to `U+FFF`. -/
def alphanumericBasic : List Nat := runs "
  GobhcbbdcbdbxbBfbRqemofhbbbDibBdsbccebbgbbdbbbubDfbFjiGkbBmcbgBpBnobbbcbcbbiBbeeBdlfCebreDybieie
  qcbqBwnDxoBrjcebfycttzhlfybhhbiBqkmdhgCybqbdepckbtbicccwbhbbdediccccbbibecbfcmcgcbedbgeccwbhbcbc
  bcefecccebhebbhqldbjbdbwbhbcbfdjbdbcdbpeckjeedbicccwbhbcbfdiccccjcecbfckbhkcbgddbedcbbbcdcdddmef
  ddbddbgbonnnbdbxbqdibdbdicbdbcceckihbebibdbxbkbfdibdbdicfdbeckbdmnbdbBpcibdbdbbfqctbgbdbsdybjbbc
  higbbbigkccnCgfhgbckBncbbbfbybbbtbdcfbbgbckceBgbBfumibBketeqbBk"

/-- From `U+1000` to `U+FFFF`. -/
def alphanumericMiddle : List Nat := runs "
  GBoCdbbcpgDacBmbbfbcBrbMvbechbbbecBpbecBhbechbbbecpbCfbecCpoudqqDicgdXwcrbBafCxdlhulvmumnbdbcmCa
  ctobebdkgkwkgDlhBrfCskBfbmejnBocflBseBaglBlBceClculkgknbxcldBxCabpbidkBmBqcCgbloCdjkdBxclfBrcdBp
  ebgbcdbfHktBilKscgcBmcgcibbbbbbbBfcCbbhbbddbhdecgenfdbhElccgflgnDxbebckbbdfgbbbbbbeblceffebbCg
  BByCiBaCwYgBeBRoIvgedcjbcBmbbfbcCehbqxjhbhbhbhbhbhbhbhbBgBvbSbdzjhfcfeDigdbDmbefBrbDqdekBgBwqBgk
  BeibpBgkBnpMiJToCmBGUfCpBucKjdBcuBvfidEjBnjcDzcDeuvbBhigkCamCqbbkkygdbbBufBjnBddBzbmplgBfbCdjock
  gxdCrbbbbydcqcelgcgcgjhbhbBrbogEtfkgQNsmxeBxMNcOccEcBmhmffmbnbfbbbcbcbEeBhNzsCmcCcBomEmfbFftkhBa
  gBalDldgcgcgcd"

/-- From `U+10000` on. -/
def alphanumericUpper : List Nat := runs "
  DSYqmbBabtbcbpcoBiEtmBtmCfrcJkBddBxqBbeBkjBefBrfBecBkeibfBqGcckgBkeBkeBoiCamlbpbhbcblbpbhbcdCam
  LzjwkiygbBqbjCrgcbbBsbcdbcxcBfcBmijBwtbcfBheBagBaBmCeeucBybcfibdbBdkjxBfbBgBgibBcgfqCckwcBbfBaxh
  DcCvCdBznBzhBuikgBmdbfxIkBfbBqbcdcqgByddBoiwleBbsBuBcuxjCsmBebfkCfjbnzhkgBzdkeeiBjdbjCmbejnbbeul
  sbBicbgeCkhbbbebpbkhCfhkgebicccwbhbcbfdiccccdbgbfhBckbbcbbBmbkbbcbbebcdbbbBsCobdbefkfdBeCoccbbik
  GkCcchzgBiClbbdblkBmCccbhkguBcBbcofmehHdCfDzDfmicbcibcbBebccccenkCsicBucgbbbcBbBzckrCufbsCvDziDk
  BhpkgjbBtbhbbpBdfBecwboCvhbcbBsdbbcbdbbccikggbcbBlbcbebbhkgBsekJmxjrbBpddpkDibpvBrBJmDyEhrHoDXk
  DtpBPgrgzFXrfWlKDdBvbkCOsVxhBfbkgDbbkgBesBwqemkbhbvftQqBtdkHqDjjzczBsCxeCfhrCmcbbmhjKXyBpBgDtEl
  MWrebhbcbLfpbBddcboeiPgDKuEdfndjhkebGErkCEwumuEezFfDhbCtbccbcccebmbbbhbCnbecibhbBcbebfbbdhbNcczb
  zbBfbzbBfbzbBfbzbBfbzbicByCQyBfggIfhbrchbcbffCkBhbEiBtkhckebMjBesBsekScBcekIgBeclHpBfbwicIqhbebc
  bpbHpcjBwCqdbdbekBElChbdbeCyBtbpHmebBbbcbbcbbkbebbbbgbebbbbbbdbcbbcbbbbbbbbbbcbbcebhbebebbbkbrfd
  bfbrWinBjBagBagBaDYkkBNqCLFcBgGMocIOccLBlpXyDQwUwCFyHHzfMOo"

/-- Whether a character is a letter or a numeral of some script. -/
def isAlphanumeric (c : Char) : Bool :=
  let n := c.toNat
  if n < 0x80 then c.isAlphanum
  else if n < 0x1000 then inRuns alphanumericBasic n
  else if n < 0x10000 then inRuns alphanumericMiddle n
  else inRuns alphanumericUpper n

/-- Numerals beyond ASCII that are not letters as well: digits of other
scripts, fractions, raised and circled numbers. -/
def numeralRuns : List Nat := runs "
  GwcfbcdCDlkFekHqkPwkEokegEekEokEokcgEgnElkihDzkEahhtEfkDskEokCsuKikCskBBruBRfkgkwkLokEylGjkgkHak
  DikFekgkBOgbdggkHqqBpbBByCiDawYgBeCBhbBTceFikBeibpBgkBnpBRSakTygFykBmkHqkwkDikPqkBFMckSzBtCnerc
  NdBbBkeOqkBKgizhBnjCxfwgGeccqcBuCmjCacBedCxfEaiyiBphMsgBwkgkKsBfGckBqeEihFeBeEykCikFokhuJrkNekEo
  kOkkDykguCymQetDpkZmkDiBdItkCskCckNukDyvYTnkDMckDikFekbhUgkKcxBJSzkCEwumuEezBQrByDNckQgkTikJnk
  BBojEykBElChbdbeCyBtbpBLanEDfk"

/-- Whether a character is a letter of some script. A Roman numeral is one. -/
def isAlphabetic (c : Char) : Bool :=
  isAlphanumeric c && !c.isDigit && !inRuns numeralRuns c.toNat

end Vigil.Text
