import BtDht.MyDhtRecord.Lifetimes
import BtDht.MyDhtRecord.Sightings
import BtDht.MyDhtStorage.Components
import BtDht.MyDhtStorage.Counters
import BtDht.MyDhtStorage.Expiry
import BtDht.MyDhtStorage.Mutable
import BtDht.MyDhtStorage.MutableHistory
import BtDht.MyDhtStorage.Polling
import BtDht.MyDhtStorage.Tick
import BtDht.MyDhtStorage2.Answers
import BtDht.MyDhtStorage2.Evictions
import BtDht.MyDhtStorage2.History
import BtDht.MyDhtStorage2.Refines
import BtDht.MySqliteClass.FindFirstUtf8Char
import BtDht.MySqliteClass.KeyListing
import BtDht.MySqliteClass.Reads
import BtDht.MySqliteClass.Tiling
import BtDht.MyWebView.GrowingPages
import BtDht.MyWebView.HotPage
import BtDht.MyWebView.Pages
import BtDht.MyWebView.StaticFile
