import CardScanner.Machine
import CardScanner.Clustering
import CardScanner.JavaCast
import CardScanner.TextRect
import CardScanner.MergeLoop
import CardScanner.MergeFixpoint
import CardScanner.TextBlocks
import CardScanner.CropWindow
import CardScanner.Runs
import CardScanner.ExtractPhone
import CardScanner.Decimal
import CardScanner.CardText
import CardScanner.OcrLanguage
import CardScanner.Downloads
import CardScanner.Xml
import CardScanner.JavaText
import CardScanner.XmlParser
import CardScanner.Normalization
import CardScanner.XmlText
import CardScanner.UnAccent
import CardScanner.XmlRuns
import CardScanner.XmlTexts
import CardScanner.XmlLines
import CardScanner.AccentsCommute
import CardScanner.Moments
import CardScanner.RunningStats
import CardScanner.CropMove
import CardScanner.Plane
import CardScanner.Squares
import CardScanner.CardCorners
import CardScanner.InstallFailure
import CardScanner.CardHistory
import CardScanner.OcrThread
import CardScanner.CropHit
import CardScanner.LanguageInstall
import CardScanner.CropPerspective
import CardScanner.ConfusedDigits
import CardScanner.EmailText
import CardScanner.Regex
import CardScanner.EmailMatch
import CardScanner.EmailFallback
import CardScanner.NameSelection
import CardScanner.XmlErrors
import CardScanner.LineRuns
import CardScanner.BlurScan
import CardScanner.BlurMask
import CardScanner.Medians
import CardScanner.BlurIndicator
import CardScanner.Codec
import CardScanner.Parcel
import CardScanner.AdjustBitmap
import CardScanner.ArrayLists
import CardScanner.LifeCycle
import CardScanner.DeleteLanguage
import CardScanner.KeyedTable
import CardScanner.LanguageSync
import CardScanner.Toggling
import CardScanner.BoxSelection
import CardScanner.ScaleFactor
import CardScanner.WeightedMean
import CardScanner.TileThreshold
import CardScanner.IntervalGrowth
import CardScanner.TextColumns
import CardScanner.DoublyLinked
import CardScanner.ContourTree
import CardScanner.BubbleSort
import CardScanner.PixelMedians
import CardScanner.ConvertGray
import CardScanner.Threads
import CardScanner.AccessOrder
import CardScanner.LruCache
import CardScanner.LruThreads
import CardScanner.Recency
import CardScanner.LruRecency
import CardScanner.Raster
import CardScanner.Tiling
import CardScanner.Binarize
import CardScanner.GaussJordan
import CardScanner.Projective
import CardScanner.Plateau
import CardScanner.OtsuSplit
import CardScanner.ColumnOcr
import CardScanner.ViewMatrix
import CardScanner.CropView
import CardScanner.Components
import CardScanner.SeedFill
import CardScanner.ComponentFill
import CardScanner.ConnComp
import CardScanner.SummedArea
import CardScanner.BlockFilter
import CardScanner.Morphology
import CardScanner.BrickMorph
import CardScanner.EdgeMask
import CardScanner.ProjectiveColor
import CardScanner.BlurComponents
import CardScanner.RankFilter
