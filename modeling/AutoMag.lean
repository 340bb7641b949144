import AutoMag.Lib.CMemory
import AutoMag.Lib.Machine
import AutoMag.Lib.Fallible
import AutoMag.Lib.Sending
import AutoMag.Lib.Lines
import AutoMag.Lib.Shift
import AutoMag.Lib.QMethod
import AutoMag.Lib.Hd44780
import AutoMag.DevLib.Lcd
import AutoMag.DevLib.LcdGlass
import AutoMag.Libtelnet.Stream
import AutoMag.Libtelnet.Table
import AutoMag.Libtelnet.Data
import AutoMag.Libtelnet.RoundTrip
import AutoMag.Libtelnet.Agreement
import AutoMag.Libtelnet.Mssp
import AutoMag.Libtelnet.Relay
import AutoMag.Libtelnet.Inline
import AutoMag.Util.Proxy
import AutoMag.Util.ChatTalk
import AutoMag.Client.Handler
import AutoMag.Client.Options
import AutoMag.Client.Projekat1
import AutoMag.Client.Trace
import AutoMag.Client.Steps
import AutoMag.Client.Menu
import AutoMag.Client.Text
import AutoMag.Client.Leds
import AutoMag.Client.Panel
import AutoMag.Client.Commands
import AutoMag.Client.Confine
import AutoMag.Client.Original
import AutoMag.Client.Bypass
import AutoMag.Client.Readings
import AutoMag.Client.Delivery
import AutoMag.Client.Display
import AutoMag.Client.Glass
import AutoMag.Client.Segments
import AutoMag.Client.Matrix
import AutoMag.Client.Outgoing
import AutoMag.Client.Keys
import AutoMag.Client.Failures
import AutoMag.Client.Calls
import AutoMag.Client.Sizes
import AutoMag.Client.Bounds
import AutoMag.Client.TelnetClient
